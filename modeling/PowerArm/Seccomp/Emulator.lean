import PowerArm.Seccomp.Bpf

/-!
# The seccomp emulator

Filters live in one reference-counted list and are named by identity; a thread
holds the identities of its filters and a cache of ALLOW verdicts that is valid
for one filter generation. Looking a freed filter up gives `none`.
-/

namespace PowerArm.Seccomp

abbrev FilterId := Nat
abbrev Tid := Nat

/-! ## Filters -/

/-- `AnalyzeFilterLoads`: whether the instruction pointer and the arguments can
be loaded. The scan gives up at a load it does not know. -/
def analyzeFilterLoads : List SockFilter → (readsIP readsArgs : Bool) → Bool × Bool
  | [], readsIP, readsArgs => (readsIP, readsArgs)
  | inst :: rest, readsIP, readsArgs =>
    if inst.cls ≠ .ld ∧ inst.cls ≠ .ldx then analyzeFilterLoads rest readsIP readsArgs
    else
      match inst.mode with
      | .imm | .mem | .len => analyzeFilterLoads rest readsIP readsArgs
      | .abs =>
        if argsOffset ≤ inst.k.toNat then analyzeFilterLoads rest readsIP true
        else if ipOffset ≤ inst.k.toNat then analyzeFilterLoads rest true readsArgs
        else analyzeFilterLoads rest readsIP readsArgs
      | _ => (true, true)

structure Filter where
  program : List SockFilter
  shouldLog : Bool
  accepted : validateProgram program = true
deriving DecidableEq

def Filter.readsIP (f : Filter) : Bool := (analyzeFilterLoads f.program false false).1
def Filter.readsArgs (f : Filter) : Bool := (analyzeFilterLoads f.program false false).2

structure FilterInfo where
  id : FilterId
  refCount : Nat
  filter : Filter

/-! ## Verdicts -/

def retActionFull : BitVec 32 := 0xffff0000
def retData : BitVec 32 := 0x0000ffff
def retKillProcess : BitVec 32 := 0x80000000
def retKillThread : BitVec 32 := 0x00000000
def retTrap : BitVec 32 := 0x00030000
def retErrno : BitVec 32 := 0x00050000
def retUserNotif : BitVec 32 := 0x7fc00000
def retTrace : BitVec 32 := 0x7ff00000
def retLog : BitVec 32 := 0x7ffc0000
def retAllow : BitVec 32 := 0x7fff0000

def auditArchAArch64 : BitVec 32 := 0xC00000B7
def sigKill : Nat := 9
def sigSys : Nat := 31

def errno (e : Nat) : BitVec 64 := -BitVec.ofNat 64 e
def eSRCH : Nat := 3
def eNOMEM : Nat := 12
def eACCES : Nat := 13
def eFAULT : Nat := 14
def eINVAL : Nat := 22
def eNOSYS : Nat := 38

structure Syscall where
  rip : BitVec 64
  nr : BitVec 64
  args : Fin 6 → BitVec 64

def Syscall.data (c : Syscall) (ip : BitVec 64) : SeccompData := ⟨c.nr.setWidth 32, auditArchAArch64, ip, c.args⟩

inductive Signal
  | killProcess (signal : Nat)
  | killThread
  | trap (errno : BitVec 32) (callAddr nr : BitVec 64)
deriving DecidableEq, Repr

structure AuditLog where
  signal : Nat
  nr : BitVec 64
  ip : BitVec 64
  code : BitVec 32
deriving DecidableEq, Repr

/-- `ExecuteFilterResult` with the log line and the signal sent on the way. -/
structure Verdict where
  earlyReturn : Bool := false
  result : BitVec 64 := 0
  log : Option AuditLog := none
  signal : Option Signal := none
deriving DecidableEq, Repr

structure Ranked where
  value : BitVec 32 := 0
  shouldLog : Bool := false
deriving DecidableEq, Repr

/-- The action as the signed 16-bit rank the kernel orders actions by. -/
def actionRank (value : BitVec 32) : BitVec 16 := ((value &&& retActionFull) >>> 16).setWidth 16

def rankFilter (data : SeccompData) (acc : Option Ranked) (f : Filter) : Option Ranked :=
  let current := (execute f.program data).value
  match acc with
  | none => some ⟨current, f.shouldLog⟩
  | some r =>
    if (actionRank current).slt (actionRank r.value) then some ⟨current, f.shouldLog⟩ else some r

/-- Filters run from the latest to the oldest; the first of highest precedence wins. -/
def runFilters (filters : List Filter) (data : SeccompData) : Ranked :=
  (filters.reverse.foldl (rankFilter data) none).getD {}

def Ranked.action (r : Ranked) : BitVec 32 := r.value &&& retActionFull
def Ranked.data (r : Ranked) : BitVec 32 := r.value &&& retData

def logSignal (killSignal : Nat) (action : BitVec 32) : Nat :=
  if action = retKillProcess ∨ action = retKillThread then killSignal
  else if action = retTrap then sigSys else 0

def actOn (killSignal : Nat) (c : Syscall) (r : Ranked) : Verdict :=
  let log := if r.shouldLog ∧ r.action ≠ retAllow ∨ r.action = retLog
    then some ⟨logSignal killSignal r.action, c.nr, c.rip, r.value⟩ else none
  if r.action = retKillThread then { log, signal := some .killThread }
  else if r.action = retTrap then { log, signal := some (.trap r.data c.rip c.nr) }
  else if r.action = retErrno then
    { log, earlyReturn := true, result := errno (min r.data.toNat 4095) }
  else if r.action = retTrace then { log, earlyReturn := true, result := errno eNOSYS }
  else if r.action = retUserNotif ∨ r.action = retLog ∨ r.action = retAllow then { log }
  -- an unknown action behaves like RET_KILL_PROCESS
  else { log, signal := some (.killProcess killSignal) }

/-! ## Verdict cache -/

def maxCachedNr : Nat := 512

inductive CacheMode
  | none
  | nrOnly
  | nrRIP
deriving DecidableEq, Repr

structure RIPEntry where
  rip : BitVec 64 := 0
  nrPlusOne : BitVec 64 := 0
deriving DecidableEq, Repr

structure VerdictCache where
  generation : BitVec 64 := 0
  mode : CacheMode := .none
  needsRIP : Bool := false
  allowedNrs : Nat → Bool := fun _ => false
  ripAllowed : BitVec 6 → RIPEntry := fun _ => {}

def cacheModeOf (filters : List Filter) : CacheMode :=
  if filters.any (·.readsArgs) then .none else if filters.any (·.readsIP) then .nrRIP else .nrOnly

def VerdictCache.revalidate (cache : VerdictCache) (generation : BitVec 64) (filters : List Filter) :
    VerdictCache :=
  if cache.generation = generation then cache
  else { generation, mode := cacheModeOf filters, needsRIP := filters.any (·.readsIP) }

def ripWay (rip nr : BitVec 64) : BitVec 6 := (rip ^^^ (rip >>> 7) ^^^ nr).setWidth 6

def VerdictCache.hit (cache : VerdictCache) (c : Syscall) : Bool :=
  match cache.mode with
  | .none => false
  | .nrOnly => c.nr.toNat < maxCachedNr && cache.allowedNrs c.nr.toNat
  | .nrRIP =>
    let entry := cache.ripAllowed (ripWay c.rip c.nr)
    entry.rip == c.rip && entry.nrPlusOne == c.nr + 1

def VerdictCache.allow (cache : VerdictCache) (c : Syscall) : VerdictCache :=
  match cache.mode with
  | .none => cache
  | .nrOnly =>
    if c.nr.toNat < maxCachedNr then
      { cache with allowedNrs := Function.update cache.allowedNrs c.nr.toNat true }
    else cache
  | .nrRIP =>
    let entry : RIPEntry := ⟨c.rip, c.nr + 1⟩
    { cache with ripAllowed := Function.update cache.ripAllowed (ripWay c.rip c.nr) entry }

/-- The interpreting path. The PC is only reconstructed for filters that can
load it, or when the probe already has. -/
def executeFilterSlow (killSignal : Nat) (filters : List Filter) (cache : VerdictCache)
    (c : Syscall) : Verdict × VerdictCache :=
  let haveRIP := cache.mode == .nrRIP || cache.needsRIP
  let r := runFilters filters (c.data (if haveRIP then c.rip else 0))
  (actOn killSignal c r, if r.action = retAllow then cache.allow c else cache)

def executeFilterOn (killSignal : Nat) (generation : BitVec 64) (filters : List Filter)
    (cache : VerdictCache) (c : Syscall) : Verdict × VerdictCache :=
  if filters = [] then ({}, cache)
  else
    let cache := cache.revalidate generation filters
    if cache.hit c then ({}, cache) else executeFilterSlow killSignal filters cache c

/-- What a syscall gets when every filter is run on its `seccomp_data`. -/
def uncachedVerdict (killSignal : Nat) (filters : List Filter) (c : Syscall) : Verdict :=
  if filters = [] then {} else actOn killSignal c (runFilters filters (c.data c.rip))

/-! ## Threads and the filter list -/

def modeDisabled : BitVec 32 := 0
def modeStrict : BitVec 32 := 1
def modeFilter : BitVec 32 := 2

structure Thread where
  tid : Tid
  seccompMode : BitVec 32 := modeDisabled
  filters : List FilterId := []
  cache : VerdictCache := {}

structure Emulator where
  filters : List FilterInfo := []
  nextId : FilterId := 0
  threads : List Thread := []
  filterGeneration : BitVec 64 := 1
  totalFilterInstructions : BitVec 64 := 0
  killSignal : Nat := sigSys

namespace Emulator

variable (s : Emulator)

def thread? (tid : Tid) : Option Thread := s.threads.find? (·.tid = tid)

def modifyThread (tid : Tid) (f : Thread → Thread) : Emulator :=
  { s with threads := s.threads.map fun t => if t.tid = tid then f t else t }

def filter? (id : FilterId) : Option Filter := (s.filters.find? (·.id = id)).map (·.filter)

/-- Follow a thread's filter pointers; `none` if one of them dangles. -/
def resolve (ids : List FilterId) : Option (List Filter) := ids.mapM s.filter?

def addRefs (ids : List FilterId) : Emulator :=
  { s with filters := s.filters.map fun f => { f with refCount := f.refCount + ids.count f.id } }

def bumpGeneration : Emulator := { s with filterGeneration := s.filterGeneration + 1 }

/-- `Filters.emplace_back` with one reference, appended to the thread. -/
def addFilter (tid : Tid) (f : Filter) : Emulator :=
  let s := s.modifyThread tid fun t => { t with filters := t.filters ++ [s.nextId] }
  { s with
    filters := s.filters ++ [⟨s.nextId, 1, f⟩]
    nextId := s.nextId + 1
    totalFilterInstructions := s.totalFilterInstructions + BitVec.ofNat 64 f.program.length }

def setMode (tid : Tid) (mode : BitVec 32) : Emulator :=
  s.modifyThread tid fun t => { t with seccompMode := mode }

/-! ## Installing a filter -/

def flagTsync : BitVec 32 := 1 <<< 0
def flagLog : BitVec 32 := 1 <<< 1
def flagSpecAllow : BitVec 32 := 1 <<< 2
def flagNewListener : BitVec 32 := 1 <<< 3
def flagTsyncEsrch : BitVec 32 := 1 <<< 4
def supportedFlags : BitVec 32 := flagTsync ||| flagLog ||| flagSpecAllow ||| flagTsyncEsrch

def multiFilterPenalty : Nat := 4
def maxInsnsPerPath : Nat := 32768

/-- The TID of the first thread that stops a TSYNC, 0 when none does. -/
def canDoTSync (caller : Thread) : Tid :=
  ((s.threads.find? fun t => t.tid ≠ caller.tid ∧ t.seccompMode ≠ modeDisabled ∧
    (t.seccompMode ≠ caller.seccompMode ∨ t.filters ≠ caller.filters)).map (·.tid)).getD 0

def tsyncThread (caller t : Thread) : Thread :=
  if t.tid = caller.tid then t
  else { t with filters := caller.filters, seccompMode := caller.seccompMode }

/-- `TSyncFilters`: every other thread takes the caller's list. The references
of the lists it replaces are not dropped. -/
def tsyncFilters (caller : Thread) : Emulator :=
  let others := s.threads.filter (·.tid ≠ caller.tid)
  let s := others.foldl (fun s _ => s.addRefs caller.filters) s
  { s with threads := s.threads.map (tsyncThread caller) }

def install (tid : Tid) (flags : BitVec 32) (f : Filter) : Emulator :=
  let s := (s.addFilter tid f).setMode tid modeFilter
  let s := if flags &&& flagTsync ≠ 0 then
      match s.thread? tid with
      | some caller => s.tsyncFilters caller
      | none => s
    else s
  s.bumpGeneration

def setModeFilter (tid : Tid) (flags : BitVec 32) (prog : Option (List SockFilter))
    (noNewPrivs : Bool) : BitVec 64 × Emulator :=
  match s.thread? tid with
  | none => (errno eINVAL, s)
  | some t =>
    if flags &&& ~~~supportedFlags ≠ 0 then (errno eINVAL, s)
    else if flags &&& flagTsync ≠ 0 ∧ flags &&& flagNewListener ≠ 0 ∧ flags &&& flagTsyncEsrch = 0 then
      (errno eINVAL, s)
    else
      match prog with
      | none => (errno eFAULT, s)
      | some prog =>
        if !noNewPrivs then (errno eACCES, s)
        else if maxInsns < prog.length ∨ prog.length = 0 then (errno eINVAL, s)
        else if maxInsnsPerPath < (s.totalFilterInstructions + BitVec.ofNat 64 prog.length +
            BitVec.ofNat 64 (t.filters.length * multiFilterPenalty)).toNat then (errno eNOMEM, s)
        else
          let blocker := if flags &&& flagTsync ≠ 0 then s.canDoTSync t else 0
          if blocker ≠ 0 then
            (if flags &&& flagTsyncEsrch ≠ 0 then errno eSRCH else BitVec.ofNat 64 blocker, s)
          else if h : validateProgram prog = true then
            (0, s.install tid flags ⟨prog, flags &&& flagLog != 0, h⟩)
          else (errno eINVAL, s)

def allowSyscall (nr : BitVec 32) : List SockFilter := [⟨0x15, 0, 1, nr⟩, ⟨0x06, 0, 0, retAllow⟩]

def strictFilter : List SockFilter :=
  ⟨0x20, 0, 0, 0⟩ :: ([63, 64, 93, 94, 139].flatMap allowSyscall ++ [⟨0x06, 0, 0, retKillProcess⟩])

def setModeStrict (tid : Tid) (flags : BitVec 32) (argNull noNewPrivs : Bool) :
    BitVec 64 × Emulator :=
  match s.thread? tid with
  | none => (errno eINVAL, s)
  | some t =>
    if !noNewPrivs then (errno eACCES, s)
    else if flags ≠ 0 ∨ !argNull ∨ t.seccompMode = modeFilter then (errno eINVAL, s)
    else
      let s := { s with killSignal := sigKill }
      (0, (s.setModeFilter tid 0 (some strictFilter) noNewPrivs).2.setMode tid modeStrict)

/-! ## Threads, execve, syscalls -/

def spawn (parent : Option Tid) (child : Tid) : Emulator :=
  if (s.thread? child).isSome then s
  else
    match parent.bind s.thread? with
    | none => { s with threads := s.threads ++ [{ tid := child }] }
    | some p =>
      let s := s.addRefs p.filters
      let t : Thread := { tid := child, filters := p.filters, seccompMode := p.seccompMode }
      { s with threads := s.threads ++ [t] }

def dropRef (acc : List FilterInfo × Bool) (id : FilterId) : List FilterInfo × Bool :=
  (acc.1.map fun f => if f.id = id then { f with refCount := f.refCount - 1 } else f,
    acc.2 || acc.1.any fun f => f.id = id ∧ f.refCount = 1)

/-- `FreeSeccompFilters`, and the thread is gone. -/
def exit (tid : Tid) : Emulator :=
  match s.thread? tid with
  | none => s
  | some t =>
    let dropped := t.filters.foldl dropRef (s.filters, false)
    { s with
      filters := if dropped.2 then dropped.1.filter (·.refCount ≠ 0) else dropped.1
      threads := s.threads.filter (·.tid ≠ tid) }

/-- A serialized filter: its header and the program words the next read returned. -/
structure SerializedFilter where
  programSize : Nat
  filterInstructions : Nat
  shouldLog : Bool
  program : List SockFilter

/-- The sealed file handed across `execve`; `header` is the filter count and the
mode, absent when it cannot be read. -/
structure FilterImage where
  header : Option (Nat × BitVec 32)
  filters : List SerializedFilter

def SerializedFilter.check (f : SerializedFilter) : Option Filter :=
  if f.filterInstructions = 0 ∨ maxInsns < f.filterInstructions ∨
      f.programSize ≠ f.filterInstructions * 8 ∨ f.program.length ≠ f.filterInstructions then none
  else if h : validateProgram f.program = true then some ⟨f.program, f.shouldLog, h⟩ else none

/-- The filters of an image up to the first that fails, and whether all were read. -/
def readFilters : Nat → List SerializedFilter → List Filter × Bool
  | 0, _ => ([], true)
  | _ + 1, [] => ([], false)
  | n + 1, f :: fs =>
    match f.check with
    | none => ([], false)
    | some g => (g :: (readFilters n fs).1, (readFilters n fs).2)

/-- Filters are appended as they are read; mode and generation follow the last. -/
def deserializeFilters (tid : Tid) (image : FilterImage) : Emulator :=
  match image.header with
  | none => s
  | some (count, mode) =>
    let r := readFilters count image.filters
    let s := r.1.foldl (fun s f => s.addFilter tid f) s
    if r.2 then (s.setMode tid mode).bumpGeneration else s

def executeFilter (tid : Tid) (c : Syscall) : Option (Verdict × Emulator) := do
  let t ← s.thread? tid
  let filters ← s.resolve t.filters
  let r := executeFilterOn s.killSignal s.filterGeneration filters t.cache c
  return (r.1, s.modifyThread tid fun t => { t with cache := r.2 })

inductive Op
  | setModeFilter (tid : Tid) (flags : BitVec 32) (prog : Option (List SockFilter)) (noNewPrivs : Bool)
  | setModeStrict (tid : Tid) (flags : BitVec 32) (argNull noNewPrivs : Bool)
  | spawn (parent : Option Tid) (child : Tid)
  | deserialize (tid : Tid) (image : FilterImage)
  | exit (tid : Tid)
  | syscall (tid : Tid) (call : Syscall)

def step : Op → Emulator
  | .setModeFilter tid flags prog noNewPrivs => (s.setModeFilter tid flags prog noNewPrivs).2
  | .setModeStrict tid flags argNull noNewPrivs => (s.setModeStrict tid flags argNull noNewPrivs).2
  | .spawn parent child => s.spawn parent child
  | .deserialize tid image => s.deserializeFilters tid image
  | .exit tid => s.exit tid
  | .syscall tid c => ((s.executeFilter tid c).map (·.2)).getD s

def run (ops : List Op) : Emulator := ops.foldl step s

end Emulator

end PowerArm.Seccomp
