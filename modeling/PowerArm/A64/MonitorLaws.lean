import PowerArm.A64.ExclusiveLoopLaws
import PowerArm.A64.Monitor

/-!
# The software exclusive monitor

The monitor fields of a thread that is between two instructions agree with what its
history says (`Agrees`), in every reachable state. So a store-exclusive stores exactly
when memory still holds what the latest exclusive load read at its address and size, and
nothing of the sequence changes NZCV (`exclusive_monitor`).
-/

namespace PowerArm.A64

open Function (update_of_ne update_self)

open Lib (Act Resume)

def Agrees (excl : Monitor) : Option Record → Prop
  | none => excl.valid = 0
  | some (.single size addr value) =>
    excl.valid = 1 ∧ excl.size = BitVec.ofNat 8 size.bytes ∧ excl.addr = addr ∧
      excl.value = value ∧ size.trunc value = value
  | some (.pair addr lo hi) =>
    excl.valid = 1 ∧ excl.size = 16 ∧ excl.addr = addr ∧ excl.value = lo ∧ excl.valueHi = hi

def Instr.flags (nzcv : Flags) : Instr → Flags
  | .other _ nzcv' => nzcv'
  | _ => nzcv

def Possible (access : Access) (reply : Reply) : Prop :=
  ∃ answer mem mem', Memory.serve answer mem access = some (reply, mem')

def Instr.Post (instr : Instr) (prior : Option Record) (nzcv : Flags) (trace : Trace)
    (finished : Bool) (cpu : Cpu) : Prop :=
  Agrees cpu.excl (instr.arms prior trace finished) ∧ cpu.nzcv = nzcv

/-! ## The handlers as trees -/

theorem trunc_of_possible (h : Possible (.load size addr) reply) : size.trunc reply.value = reply.value := by
  obtain ⟨answer, mem, mem', hs⟩ := h
  simp only [Memory.serve, Option.ite_none_right_eq_some, Option.some.injEq] at hs
  obtain ⟨-, rfl, -⟩ := hs
  exact mem.trunc_read size addr

theorem OpSize.bytes_ofLog (h : n < 4) : (OpSize.ofLog n).bytes = 1 <<< n := by
  match n, h with
  | 0, _ | 1, _ | 2, _ | 3, _ => rfl

theorem loadExclusive_settles (word : Word) (h : Agrees cpu.excl prior) :
    (Instr.code (.loadExclusive word) cpu).Settles Possible
      (Instr.Post (.loadExclusive word) prior cpu.nzcv) [] := by
  simp only [Instr.code, loadExclusive, Act.bind_apply, storeReg_eq]
  refine ⟨⟨h, rfl⟩, fun reply hreply => ⟨?_, rfl⟩⟩
  have hlen := OpSize.bytes_ofLog (bits_lt word 31 30)
  exact ⟨rfl, congrArg (BitVec.ofNat 8) hlen.symm, rfl, rfl, trunc_of_possible hreply⟩

theorem loadExclusivePair_settles (word : Word) (h : Agrees cpu.excl prior) :
    (Instr.code (.loadExclusivePair word) cpu).Settles Possible
      (Instr.Post (.loadExclusivePair word) prior cpu.nzcv) [] := by
  simp only [Instr.code, loadExclusivePair]
  cases bit word 30 with
  | true =>
    simp only [if_true, Act.bind_apply, storeX_eq]
    refine ⟨⟨h, rfl⟩, fun lo _ => ⟨⟨h, rfl⟩, fun hi _ => ⟨?_, rfl⟩⟩⟩
    exact ⟨rfl, rfl, rfl, rfl, rfl⟩
  | false =>
    simp only [Bool.false_eq_true, if_false, Act.bind_apply, storeW, storeX_eq]
    refine ⟨⟨h, rfl⟩, fun lo hlo => ⟨?_, rfl⟩⟩
    exact ⟨rfl, rfl, rfl, rfl, trunc_of_possible hlo⟩

/-! ## Store-exclusives -/

def Cpu.clearMonitor (cpu : Cpu) : Cpu := { cpu with excl := { cpu.excl with valid := 0 } }

def ExclusiveStore.Matches (store : ExclusiveStore) (prior : Option Record) : Prop :=
  ∃ r, prior = some r ∧ r.addr = store.addr ∧ r.bytes = store.bytes

def ExclusiveStore.Accessible (store : ExclusiveStore) (mem : Memory) : Prop :=
  mem.canRead store.addr store.bytes ∧ mem.canWrite store.addr store.bytes

def Monitor.matched (excl : Monitor) (addr : Addr) (bytes : Nat) : Value :=
  Ir.and .i64Bit (Ir.select (excl.addr == addr) 1 0)
    (Ir.select (excl.size.setWidth 64 == BitVec.ofNat 64 bytes) (excl.valid.setWidth 64) 0)

theorem exclusiveMatch_eq (rn : Reg) (bytes : Nat) (cpu : Cpu) : exclusiveMatch rn bytes cpu =
      .ret (cpu.excl.matched (cpu.gpr rn) bytes) cpu.clearMonitor := rfl

theorem size_eq_iff (hm : m < 256) (hn : n < 256) : (BitVec.ofNat 8 m).setWidth 64 = BitVec.ofNat 64 n ↔ m = n := by
  rw [← BitVec.toNat_inj, BitVec.toNat_setWidth, BitVec.toNat_ofNat, BitVec.toNat_ofNat]
  omega

theorem Ir.and_i64Bit (a b : Value) : Ir.and .i64Bit a b = a &&& b := by
  show BitVec.setWidth 64 (BitVec.setWidth 64 a &&& BitVec.setWidth 64 b) = a &&& b
  simp

theorem Ir.or_i64Bit (a b : Value) : Ir.or .i64Bit a b = a ||| b := by
  show BitVec.setWidth 64 (BitVec.setWidth 64 a ||| BitVec.setWidth 64 b) = a ||| b
  simp

theorem matched_of_valid {excl : Monitor} (hvalid : excl.valid = 1)
    (hsize : excl.size = BitVec.ofNat 8 m) (hm : m < 256) (hn : n < 256) :
    excl.matched addr n ≠ 0 ↔ excl.addr = addr ∧ m = n := by
  rw [Monitor.matched, Ir.and_i64Bit, hsize]
  have hs := size_eq_iff hm hn
  by_cases ha : excl.addr = addr <;> by_cases hmn : m = n
  all_goals simp_all [Ir.select]

theorem matched_ne_zero_iff {excl : Monitor} (h : Agrees excl prior) (hn : n < 256) :
    excl.matched addr n ≠ 0 ↔ ∃ r, prior = some r ∧ r.addr = addr ∧ r.bytes = n := by
  match prior, h with
  | none, hvalid =>
    rw [Monitor.matched, Ir.and_i64Bit, show excl.valid = 0 from hvalid]
    simp [Ir.select]
  | some (.single size a v), ⟨hvalid, hsize, haddr, _, _⟩ =>
    rw [matched_of_valid hvalid hsize (Nat.lt_of_le_of_lt size.bytes_le (by decide)) hn, haddr]
    simp [Record.addr, Record.bytes]
  | some (.pair a lo hi), ⟨hvalid, hsize, haddr, _, _⟩ =>
    rw [matched_of_valid hvalid hsize (by decide) hn, haddr]
    simp [Record.addr, Record.bytes]

/-- One exchange that stores when memory still holds the record, and the status it
answers with. -/
structure Exchanges (store : ExclusiveStore) (r : Record) (access : Access)
    (status : Reply → Value) : Prop where
  held : ∀ mem answer, store.Accessible mem → r.HeldBy mem →
    ∃ reply, mem.serve answer access = some (reply, store.write mem) ∧ status reply = 0
  changed : ∀ mem answer, store.Accessible mem → ¬r.HeldBy mem →
    ∃ reply, mem.serve answer access = some (reply, mem) ∧ status reply = 1
  denied : ∀ mem answer, ¬store.Accessible mem → mem.serve answer access = none

theorem exchanges_cas (size : OpSize) (addr : Addr) (hv : size.trunc v = v) :
    Exchanges ⟨addr, size.bytes, rs, fun m => m.write size addr desired⟩ (.single size addr v)
      (.cas size v desired addr) fun reply => zeroExtend32 (Ir.select (reply.value == v) 0 1) := by
  constructor
  · rintro mem answer ⟨hread, hwrite⟩ hheld
    exact ⟨⟨v, 0, answer⟩, by simp_all [Memory.serve, Memory.exchange, Record.HeldBy],
      by simp [Ir.select, zeroExtend32, Ir.bfe]⟩
  · rintro mem answer ⟨hread, hwrite⟩ hheld
    refine ⟨⟨mem.read size addr, 0, answer⟩, by simp_all [Memory.serve, Memory.exchange, Record.HeldBy], ?_⟩
    have hne : mem.read size addr ≠ v := hheld
    simp [Ir.select, zeroExtend32, Ir.bfe, hne]
  · intro mem answer hacc
    exact if_neg hacc

theorem exchanges_casPair (addr : Addr) (lo hi : Value) :
    Exchanges ⟨addr, 16, rs, fun m => (m.write .i64Bit addr dlo).write .i64Bit (addr + 8) dhi⟩
      (.pair addr lo hi) (.casPair lo hi dlo dhi addr) fun reply =>
        zeroExtend32 (Ir.select (Ir.and .i64Bit (Ir.select (reply.value == lo) 1 0)
          (Ir.select (reply.valueHi == hi) 1 0) == 1) 0 1) := by
  constructor
  · rintro mem answer ⟨hread, hwrite⟩ ⟨hlo, hhi⟩
    exact ⟨⟨lo, hi, answer⟩, by simp_all [Memory.serve, Memory.exchangePair],
      by simp [Ir.select, zeroExtend32, Ir.bfe, Ir.and_i64Bit]⟩
  · rintro mem answer ⟨hread, hwrite⟩ hheld
    refine ⟨⟨mem.read .i64Bit addr, mem.read .i64Bit (addr + 8), answer⟩,
      by simp_all [Memory.serve, Memory.exchangePair, Record.HeldBy], ?_⟩
    have hne (h : mem.read .i64Bit addr = lo) : mem.read .i64Bit (addr + 8) ≠ hi :=
      fun h' => hheld ⟨h, h'⟩
    generalize mem.read .i64Bit addr = outLo, mem.read .i64Bit (addr + 8) = outHi at hne ⊢
    by_cases h : outLo = lo
    · simp [Ir.select, zeroExtend32, Ir.bfe, Ir.and_i64Bit, hne h]
    · simp [Ir.select, zeroExtend32, Ir.bfe, Ir.and_i64Bit, h]
  · intro mem answer hacc
    exact if_neg hacc

theorem packPair_eq (lo hi : Value) : Ir.or .i64Bit (Ir.lshl .i64Bit hi 32) (Ir.bfe 32 0 lo) =
      (hi.setWidth 32 ++ lo.setWidth 32 : BitVec 64) := by
  rw [Ir.or_i64Bit]
  have hshift : Ir.lshl .i64Bit hi 32 = hi <<< 32 := by
    show BitVec.setWidth 64 (BitVec.setWidth 64 hi <<< 32) = hi <<< 32
    simp
  rw [hshift, Ir.bfe]
  ext i hlt
  refine Eq.trans ?_ (BitVec.getElem_append hlt).symm
  by_cases h : i < 32
  · simp [h]
  · simp [h, BitVec.getLsbD_eq_getElem (show i - 32 < 64 by omega)]

theorem bytes_inj {size size' : OpSize} (h : size.bytes = size'.bytes) : size = size' := by
  cases size <;> cases size' <;> first | rfl | cases h

section Stores

variable {instr : Instr} {cpu : Cpu} {store : ExclusiveStore} {prior : Option Record}

theorem one_shiftLeft_lt (word : Word) : 1 <<< bits word 31 30 < 256 := by
  rw [← OpSize.bytes_ofLog (bits_lt word 31 30)]
  exact Nat.lt_of_le_of_lt (OpSize.bytes_le _) (by decide)

theorem code_of_not_matches (hstore : instr.exclusiveStore? cpu = some store)
    (h : Agrees cpu.excl prior) (hm : ¬store.Matches prior) :
    instr.code cpu = .ret () (cpu.clearMonitor.writeX store.status 1) := by
  cases instr with
  | storeExclusive word =>
    obtain rfl := Option.some.inj hstore
    have hmatch := (matched_ne_zero_iff h (one_shiftLeft_lt word)).not.mpr hm
    simp only [Instr.code, storeExclusive, Act.bind_apply, exclusiveMatch_eq, Resume.bind_ret, if_neg hmatch]
    rfl
  | storeExclusivePair word =>
    simp only [Instr.exclusiveStore?] at hstore
    cases hb : bit word 30 with
    | true =>
      rw [if_pos hb] at hstore
      obtain rfl := Option.some.inj hstore
      have hmatch : ¬cpu.excl.matched (cpu.gpr (reg word 5)) 16 ≠ 0 :=
        (matched_ne_zero_iff h (by decide)).not.mpr hm
      simp only [Instr.code, storeExclusivePair, hb, if_true, Act.bind_apply, exclusiveMatch_eq,
        Resume.bind_ret, if_neg hmatch]
      rfl
    | false =>
      rw [if_neg (by simp [hb])] at hstore
      obtain rfl := Option.some.inj hstore
      have hmatch : ¬cpu.excl.matched (cpu.gpr (reg word 5)) 8 ≠ 0 := (matched_ne_zero_iff h (by decide)).not.mpr hm
      simp only [Instr.code, storeExclusivePair, hb, Bool.false_eq_true, if_false,
        Act.bind_apply, exclusiveMatch_eq, Resume.bind_ret, if_neg hmatch]
      rfl
  | _ => cases hstore

/-- The store clears the monitor, makes one exchange and writes its status. -/
def Stores (instr : Instr) (cpu : Cpu) (store : ExclusiveStore) (r : Record) : Prop :=
  ∃ access status, Exchanges store r access status ∧ instr.code cpu = .ask cpu.clearMonitor access fun reply =>
    .ret () (cpu.clearMonitor.writeX store.status (status reply))

theorem storeExclusive_of_matches (word : Word)
    (hstore : (Instr.storeExclusive word).exclusiveStore? cpu = some store)
    (h : Agrees cpu.excl (some (.single size (cpu.gpr (reg word 5)) v)))
    (hsize : size = OpSize.ofLog (bits word 31 30)) :
    Stores (.storeExclusive word) cpu store (.single size (cpu.gpr (reg word 5)) v) := by
  have hlen := OpSize.bytes_ofLog (bits_lt word 31 30)
  have hmatch : cpu.excl.matched (cpu.gpr (reg word 5)) (1 <<< bits word 31 30) ≠ 0 :=
    (matched_ne_zero_iff h (one_shiftLeft_lt word)).mpr ⟨_, rfl, rfl, (congrArg OpSize.bytes hsize).trans hlen⟩
  obtain ⟨-, -, -, rfl, hv⟩ := h
  obtain rfl := Option.some.inj hstore
  subst hsize
  refine ⟨_, _, hlen ▸ exchanges_cas _ _ hv, ?_⟩
  simp only [Instr.code, storeExclusive, Act.bind_apply, exclusiveMatch_eq, Resume.bind_ret, if_pos hmatch]
  rfl

theorem storePair64_of_matches (word : Word) (hb : bit word 30)
    (hstore : (Instr.storeExclusivePair word).exclusiveStore? cpu = some store)
    (h : Agrees cpu.excl (some (.pair (cpu.gpr (reg word 5)) lo hi))) :
    Stores (.storeExclusivePair word) cpu store (.pair (cpu.gpr (reg word 5)) lo hi) := by
  have hmatch : cpu.excl.matched (cpu.gpr (reg word 5)) 16 ≠ 0 :=
    (matched_ne_zero_iff h (by decide)).mpr ⟨_, rfl, rfl, rfl⟩
  obtain ⟨-, -, -, rfl, rfl⟩ := h
  simp only [Instr.exclusiveStore?, if_pos hb, Option.some.injEq] at hstore
  subst hstore
  refine ⟨_, _, exchanges_casPair _ _ _, ?_⟩
  simp only [Instr.code, storeExclusivePair, hb, if_true, Act.bind_apply, exclusiveMatch_eq,
    Resume.bind_ret, if_pos hmatch]
  rfl

theorem storePair32_of_matches (word : Word) (hb : bit word 30 = false)
    (hstore : (Instr.storeExclusivePair word).exclusiveStore? cpu = some store)
    (h : Agrees cpu.excl (some (.single .i64Bit (cpu.gpr (reg word 5)) v))) :
    Stores (.storeExclusivePair word) cpu store (.single .i64Bit (cpu.gpr (reg word 5)) v) := by
  have hmatch : cpu.excl.matched (cpu.gpr (reg word 5)) 8 ≠ 0 :=
    (matched_ne_zero_iff h (by decide)).mpr ⟨_, rfl, rfl, rfl⟩
  obtain ⟨-, -, -, rfl, hv⟩ := h
  simp only [Instr.exclusiveStore?, hb, Bool.false_eq_true, if_false, Option.some.injEq, ← packPair_eq] at hstore
  subst hstore
  refine ⟨_, _, exchanges_cas .i64Bit _ hv, ?_⟩
  simp only [Instr.code, storeExclusivePair, hb, Bool.false_eq_true, if_false, Act.bind_apply,
    exclusiveMatch_eq, Resume.bind_ret, if_pos hmatch]
  rfl

theorem code_of_matches (hstore : instr.exclusiveStore? cpu = some store)
    (h : Agrees cpu.excl (some r)) (haddr : r.addr = store.addr) (hbytes : r.bytes = store.bytes) :
    Stores instr cpu store r := by
  cases instr with
  | storeExclusive word =>
    have hs := hstore
    obtain rfl := Option.some.inj hs
    have hlen := OpSize.bytes_ofLog (bits_lt word 31 30)
    cases r with
    | single size addr v =>
      obtain rfl : addr = cpu.gpr (reg word 5) := haddr
      exact storeExclusive_of_matches word hstore h (bytes_inj (hbytes.trans hlen.symm))
    | pair addr lo hi =>
      have hle := OpSize.bytes_le (OpSize.ofLog (bits word 31 30))
      exact absurd (show 16 = 1 <<< bits word 31 30 from hbytes) (by omega)
  | storeExclusivePair word =>
    have hs := hstore
    simp only [Instr.exclusiveStore?] at hs
    split at hs
    · next hb =>
      obtain rfl := Option.some.inj hs
      cases r with
      | single size addr v =>
        have hle := size.bytes_le
        exact absurd (show size.bytes = 16 from hbytes) (by omega)
      | pair addr lo hi =>
        obtain rfl : addr = cpu.gpr (reg word 5) := haddr
        exact storePair64_of_matches word hb hstore h
    · next hb =>
      obtain rfl := Option.some.inj hs
      cases r with
      | single size addr v =>
        obtain rfl : addr = cpu.gpr (reg word 5) := haddr
        obtain rfl : size = .i64Bit := bytes_inj hbytes
        exact storePair32_of_matches word (Bool.eq_false_iff.mpr hb) hstore h
      | pair addr lo hi => exact absurd (show 16 = 8 from hbytes) (by decide)
  | _ => cases hstore

end Stores

/-! ## Every instruction leaves the monitor its history describes -/

def Quiet (nzcv : Flags) (cpu : Cpu) : Prop := cpu.excl.valid = 0 ∧ cpu.nzcv = nzcv

theorem Quiet.setGpr (h : Quiet nzcv cpu) (r : Reg) (v : Value) : Quiet nzcv (cpu.setGpr r v) := h

theorem Quiet.writeX (h : Quiet nzcv cpu) (r : Reg) (v : Value) : Quiet nzcv (cpu.writeX r v) := by
  unfold Cpu.writeX
  split
  · exact h
  · exact h.setGpr r v

theorem quiet_clearMonitor (cpu : Cpu) : Quiet cpu.nzcv cpu.clearMonitor := ⟨rfl, rfl⟩

theorem exclusiveStore_always {instr : Instr} {cpu : Cpu}
    (hstore : instr.exclusiveStore? cpu = some store) (h : Agrees cpu.excl prior) :
    (instr.code cpu).Always (Quiet cpu.nzcv) := by
  have hq := quiet_clearMonitor cpu
  by_cases hm : store.Matches prior
  · obtain ⟨r, rfl, haddr, hbytes⟩ := hm
    obtain ⟨access, status, -, hcode⟩ := code_of_matches hstore h haddr hbytes
    rw [hcode]
    exact ⟨hq, fun reply => hq.writeX _ _⟩
  · rw [code_of_not_matches hstore h hm]
    exact hq.writeX _ _

theorem keeps_guestOpcode (pc : Addr) : Act.Keeps (Quiet nzcv) (guestOpcode pc) := Act.Keeps.modify fun _ h => h

theorem keeps_storeX (r : Reg) (v : Value) : Act.Keeps (Quiet nzcv) (storeX r v) :=
  Act.Keeps.modify fun _ h => h.writeX r v

theorem keeps_storeReg (r : Reg) (is64 : Bool) (v : Value) : Act.Keeps (Quiet nzcv) (storeReg r is64 v) := by
  unfold storeReg
  split
  · exact keeps_storeX r v
  · exact keeps_storeX r _

theorem keeps_translateInstruction (h : inst.isRow exclusiveBodyRow) :
    Act.Keeps (Quiet nzcv) (translateInstruction inst) := by
  obtain ⟨row, hm, hrow⟩ := DecodedInst.exists_row h
  rw [translateInstruction_eq hm]
  refine Act.Keeps.bind (fun cpu hq => ?_) fun handled => ?_
  · obtain hrej | ⟨f, hf, -⟩ := exclusiveBody_regOnly inst hm hrow
    · rw [hrej]
      exact hq
    · rw [hf]
      exact hq.setGpr _ _
  · split
    · exact (Act.Keeps.request _).bind fun _ => Act.Keeps.pure _
    · exact Act.Keeps.pure _

theorem keeps_translateBody
    (h : ∀ inst ∈ body, inst.isRow exclusiveBodyRow) : Act.Keeps (Quiet nzcv) (translateBody body) := by
  induction body with
  | nil => exact Act.Keeps.pure _
  | cons inst rest ih =>
    rw [List.forall_mem_cons] at h
    exact (keeps_guestOpcode _).bind fun _ => (keeps_translateInstruction h.1).bind fun _ => ih h.2

theorem keeps_pass {l : LoopBlock} (hl : l.Fuses) (address : Addr) : Act.Keeps (Quiet nzcv) (l.pass address) :=
  (keeps_guestOpcode _).bind fun _ =>
    ((Act.Keeps.request _).bind fun _ => Act.Keeps.pure _).bind fun _ =>
    (keeps_storeReg _ _ _).bind fun _ =>
    (keeps_translateBody hl.body_rows).bind fun _ =>
    (keeps_guestOpcode _).bind fun _ =>
    (Act.Keeps.gets _).bind fun _ => (Act.Keeps.request _).bind fun _ => Act.Keeps.pure _

theorem keeps_passes {l : LoopBlock} (hl : l.Fuses) (address : Addr) (fuel : Nat) :
    Act.Keeps (Quiet nzcv) (l.passes address fuel) := by
  induction fuel with
  | zero => exact (Act.Keeps.request _).bind fun _ => Act.Keeps.pure _
  | succ fuel ih =>
    refine (keeps_pass hl address).bind fun stored => ?_
    split
    · exact Act.Keeps.pure _
    · exact ih

theorem fused_always {l : LoopBlock} (hl : l.Fuses) (fuel : Nat) (cpu : Cpu) :
    (l.fused fuel cpu).Always (Quiet cpu.nzcv) := by
  have hrest : Act.Keeps (Quiet cpu.nzcv) (do
      l.passes (cpu.gpr l.rn) fuel
      guestOpcode l.br.pc
      storeW l.rs 0
      exitToPC (l.br.pc + 4)) :=
    (keeps_passes hl _ fuel).bind fun _ => (keeps_guestOpcode _).bind fun _ =>
      (keeps_storeX _ _).bind fun _ => Act.Keeps.modify fun _ h => h
  exact hrest _ (quiet_clearMonitor cpu)

/-- Wherever an instruction ends, the monitor holds what the history says and the flags
are those it started with. -/
theorem code_settles (instr : Instr) (h : Agrees cpu.excl prior) :
    (instr.code cpu).Settles Possible (instr.Post prior (instr.flags cpu.nzcv)) [] := by
  cases instr with
  | loadExclusive word => exact loadExclusive_settles word h
  | loadExclusivePair word => exact loadExclusivePair_settles word h
  | storeExclusive word => exact (exclusiveStore_always rfl h).settles (fun _ _ _ hq => hq) []
  | storeExclusivePair word =>
    cases hb : bit word 30 <;>
      exact (exclusiveStore_always (by simp only [Instr.exclusiveStore?, hb]; rfl) h).settles
        (fun _ _ _ hq => hq) []
  | clrex => exact ⟨rfl, rfl⟩
  | fusedLoop l hl fuel => exact (fused_always hl fuel cpu).settles (fun _ _ _ hq => hq) []
  | write size addr value => exact ⟨⟨h, rfl⟩, fun _ _ => ⟨h, rfl⟩⟩
  | other gpr nzcv => exact ⟨h, rfl⟩

/-! ## Runs -/

/-- An idle thread's monitor holds what its history says; a running one's will, wherever
its instruction ends. -/
def Thread.Inv (prior : Option Record) (th : Thread) : Prop :=
  match th.running with
  | none => Agrees th.cpu.excl prior
  | some r => r.prog.Settles Possible (r.instr.Post prior th.cpu.nzcv) r.trace

def System.Inv (sys : System) : Prop := ∀ t, (sys.threads t).Inv (armed t sys.history)

/-- What the step of thread `t` must leave: the invariant, the flags `nzcv` in `t`, and
every other thread as it was. -/
structure System.StepOk (sys sys' : System) (t : Nat) (nzcv : Flags) : Prop where
  inv : sys'.Inv
  nzcv : (sys'.threads t).cpu.nzcv = nzcv
  frame : ∀ t' ≠ t, sys'.threads t' = sys.threads t'

section Steps

variable {sys : System} {instr : Instr} {trace : Trace} {prog : Prog Unit} {r : Running}

theorem armed_cons_ne (h : d.thread ≠ t) : armed t (d :: history) = armed t history := if_neg h

theorem Instr.Post.complete (hpost : instr.Post (armed t sys.history) nzcv trace finished cpu)
    (h : sys.Inv) : sys.StepOk (sys.complete t instr trace finished cpu) t nzcv where
  inv t' := by
    by_cases ht : t' = t
    · subst ht
      simp only [System.complete, System.setThread, update_self, armed]
      exact hpost.1
    · simp only [System.complete, System.setThread, update_of_ne ht]
      rw [armed_cons_ne (Ne.symm ht)]
      exact h t'
  nzcv := by
    simp only [System.complete, System.setThread, update_self]
    exact hpost.2
  frame t' ht := by simp only [System.complete, System.setThread, update_of_ne ht]

theorem settle_stepOk (hprog : prog.Settles Possible (instr.Post (armed t sys.history) nzcv) trace)
    (h : sys.Inv) : sys.StepOk (sys.settle t instr trace prog) t nzcv := by
  cases prog with
  | ret a cpu => exact Instr.Post.complete hprog h
  | ask cpu access next =>
    have hnzcv : cpu.nzcv = nzcv := hprog.1.2
    subst hnzcv
    constructor
    · intro t'
      by_cases ht : t' = t
      · subst ht
        simp only [System.settle, System.setThread, update_self]
        exact hprog
      · simp only [System.settle, System.setThread, update_of_ne ht]
        exact h t'
    · simp [System.settle, System.setThread]
    · intro t' ht
      simp only [System.settle, System.setThread, update_of_ne ht]

theorem perform_stepOk (hr : r.prog.Settles Possible (r.instr.Post (armed t sys.history) nzcv) r.trace)
    (h : sys.Inv) (answer : Answer) : sys.StepOk (sys.perform t r answer) t nzcv := by
  unfold System.perform
  cases hprog : r.prog with
  | ret a cpu =>
    rw [hprog] at hr
    exact Instr.Post.complete hr h
  | ask cpu access next =>
    rw [hprog] at hr
    dsimp only
    cases hs : sys.mem.serve answer access with
    | none => exact Instr.Post.complete hr.1 h
    | some served =>
      obtain ⟨reply, mem⟩ := served
      have hok : System.StepOk { sys with mem := mem } _ t nzcv := settle_stepOk (hr.2 reply ⟨_, _, _, hs⟩) h
      exact ⟨hok.inv, hok.nzcv, hok.frame⟩

end Steps

/-- Code other than the sequence's instructions may set the flags. -/
def Event.isOther : Event → Prop
  | .start _ (.other _ _) _ => True
  | _ => False

theorem step_inv {sys : System} (h : sys.Inv) (event : Event) : (sys.step event).Inv ∧ (¬event.isOther → ∀ t,
      ((sys.step event).threads t).cpu.nzcv = (sys.threads t).cpu.nzcv) := by
  have hstay : sys.Inv ∧ (¬event.isOther → ∀ t,
      (sys.threads t).cpu.nzcv = (sys.threads t).cpu.nzcv) := ⟨h, fun _ _ => rfl⟩
  have hmoved {sys' : System} {t : Nat} {nzcv : Flags} (hok : sys.StepOk sys' t nzcv)
      (hflags : ¬event.isOther → nzcv = (sys.threads t).cpu.nzcv) :
      sys'.Inv ∧ (¬event.isOther → ∀ t', (sys'.threads t').cpu.nzcv = (sys.threads t').cpu.nzcv) := by
    refine ⟨hok.inv, fun hev t' => ?_⟩
    by_cases ht : t' = t
    · rw [ht, hok.nzcv, hflags hev]
    · rw [hok.frame t' ht]
  cases event with
  | start t instr answer =>
    have hinv := h t
    unfold Thread.Inv at hinv
    simp only [System.step]
    cases hrun : (sys.threads t).running with
    | some r => exact hstay
    | none =>
      rw [hrun] at hinv
      have hcode := code_settles instr hinv
      refine hmoved (perform_stepOk hcode h answer) fun hev => ?_
      cases instr with
      | other gpr nzcv => exact absurd trivial hev
      | _ => rfl
  | advance t answer =>
    have hinv := h t
    unfold Thread.Inv at hinv
    simp only [System.step]
    cases hrun : (sys.threads t).running with
    | none => exact hstay
    | some r =>
      rw [hrun] at hinv
      exact hmoved (perform_stepOk hinv h answer) fun _ => rfl

theorem System.Fresh.inv {sys : System} (h : sys.Fresh) : sys.Inv := by
  intro t
  rw [Thread.Inv, h.idle t, h.history]
  exact h.clear t

theorem run_inv {sys : System} (h : sys.Inv) (events : List Event) : (sys.run events).Inv := by
  induction events generalizing sys with
  | nil => exact h
  | cons event rest ih => exact ih (step_inv h event).1

/-! ## What a store-exclusive does -/

/-- The latest exclusive load of `t` is still armed, was of the store's address and size,
and memory holds what it read. -/
def System.Holds (sys : System) (t : Nat) (store : ExclusiveStore) : Prop :=
  ∃ r, armed t sys.history = some r ∧ r.addr = store.addr ∧ r.bytes = store.bytes ∧ r.HeldBy sys.mem

/-- How a store-exclusive of thread `t` may turn `sys` into `sys'`. -/
structure StoreOutcome (sys sys' : System) (t : Nat) (store : ExclusiveStore) : Prop where
  idle : (sys'.threads t).running = none
  clear : (sys'.threads t).cpu.excl.valid = 0
  stored : store.Accessible sys.mem → sys.Holds t store → sys'.mem = store.write sys.mem ∧
      (sys'.threads t).cpu.gpr = ((sys.threads t).cpu.writeX store.status 0).gpr
  failed : (store.Matches (armed t sys.history) → store.Accessible sys.mem) →
    ¬sys.Holds t store → sys'.mem = sys.mem ∧
      (sys'.threads t).cpu.gpr = ((sys.threads t).cpu.writeX store.status 1).gpr
  fault : store.Matches (armed t sys.history) → ¬store.Accessible sys.mem →
    sys'.mem = sys.mem ∧ (sys'.threads t).cpu.gpr = (sys.threads t).cpu.gpr

theorem gpr_clearMonitor_writeX (cpu : Cpu) (r : Reg) (v : Value) :
    (cpu.clearMonitor.writeX r v).gpr = (cpu.writeX r v).gpr := by
  unfold Cpu.writeX
  split
  · rfl
  · rfl

section
variable (sys : System) (t : Nat) (instr : Instr) (trace : Trace)
include sys t instr trace

@[simp] theorem System.complete_threads
    (finished : Bool) (cpu : Cpu) : (sys.complete t instr trace finished cpu).threads t = ⟨cpu, none⟩ := by
  simp [System.complete, System.setThread]

@[simp] theorem System.complete_mem
    (finished : Bool) (cpu : Cpu) : (sys.complete t instr trace finished cpu).mem = sys.mem := rfl

theorem perform_ret (cpu : Cpu) (answer : Answer) :
    sys.perform t ⟨instr, trace, .ret () cpu⟩ answer = sys.complete t instr trace true cpu := rfl

end

theorem perform_refused {sys : System} {next : Reply → Prog Unit} (hs : sys.mem.serve answer access = none) :
    sys.perform t ⟨instr, trace, .ask cpu access next⟩ answer = sys.complete t instr trace false cpu := by
  simp only [System.perform, hs]

theorem perform_last {sys : System} {next : Reply → Cpu} (hs : sys.mem.serve answer access = some (reply, mem)) :
    sys.perform t ⟨instr, trace, .ask cpu access fun reply => .ret () (next reply)⟩ answer =
      System.complete { sys with mem := mem } t instr (trace ++ [(access, reply)]) true (next reply) := by
  simp only [System.perform, hs, System.settle]

theorem start_outcome {sys : System} (h : sys.Inv) (answer : Answer) {instr : Instr}
    (hidle : (sys.threads t).running = none) (hstore : instr.exclusiveStore? (sys.threads t).cpu = some store) :
    StoreOutcome sys (sys.step (.start t instr answer)) t store := by
  have hagrees : Agrees (sys.threads t).cpu.excl (armed t sys.history) := by
    have hinv := h t
    rwa [Thread.Inv, hidle] at hinv
  have hq := quiet_clearMonitor (sys.threads t).cpu
  simp only [System.step, hidle]
  by_cases hm : store.Matches (armed t sys.history)
  · obtain ⟨r, hr, haddr, hbytes⟩ := hm
    rw [hr] at hagrees
    obtain ⟨access, status, hx, hcode⟩ := code_of_matches hstore hagrees haddr hbytes
    have hholds : sys.Holds t store ↔ r.HeldBy sys.mem := by
      constructor
      · rintro ⟨r', hr', -, -, hheld⟩
        rw [hr] at hr'
        cases hr'
        exact hheld
      · intro hheld
        exact ⟨r, hr, haddr, hbytes, hheld⟩
    by_cases hacc : store.Accessible sys.mem
    · by_cases hheld : r.HeldBy sys.mem
      · obtain ⟨reply, hs, hstatus⟩ := hx.held sys.mem answer hacc hheld
        rw [hcode, perform_last hs, hstatus]
        exact {
          idle := by simp
          clear := by simpa using (hq.writeX _ _).1
          stored := by simp [gpr_clearMonitor_writeX]
          failed := fun _ hn => absurd (hholds.mpr hheld) hn
          fault := fun _ hn => absurd hacc hn }
      · obtain ⟨reply, hs, hstatus⟩ := hx.changed sys.mem answer hacc hheld
        rw [hcode, perform_last hs, hstatus]
        exact {
          idle := by simp
          clear := by simpa using (hq.writeX _ _).1
          stored := fun _ hn => absurd (hholds.mp hn) hheld
          failed := by simp [gpr_clearMonitor_writeX]
          fault := fun _ hn => absurd hacc hn }
    · rw [hcode, perform_refused (hx.denied sys.mem answer hacc)]
      exact {
        idle := by simp
        clear := by simpa using hq.1
        stored := fun hn => absurd hn hacc
        failed := fun hn => absurd (hn ⟨r, hr, haddr, hbytes⟩) hacc
        fault := by simp [Cpu.clearMonitor] }
  · rw [code_of_not_matches hstore hagrees hm, perform_ret]
    exact {
      idle := by simp
      clear := by simpa using (hq.writeX _ _).1
      stored := fun _ ⟨r, hr, haddr, hbytes, _⟩ => absurd ⟨r, hr, haddr, hbytes⟩ hm
      failed := by simp [gpr_clearMonitor_writeX]
      fault := fun hn => absurd hn hm }

/-- In every state the threads reach, a store-exclusive stores and answers 0 when its
thread's latest exclusive load is still armed for its address and size and memory holds
what that load read, and otherwise answers 1 and stores nothing; the monitor is clear
after it; and no step of an exclusive instruction, a fused loop or a write changes NZCV.
A store whose record matches but whose address is not accessible faults. -/
theorem exclusive_monitor {sys₀ : System} (h₀ : sys₀.Fresh) (events : List Event) :
    (∀ t instr store answer, ((sys₀.run events).threads t).running = none →
      instr.exclusiveStore? ((sys₀.run events).threads t).cpu = some store →
      StoreOutcome (sys₀.run events) ((sys₀.run events).step (.start t instr answer)) t store) ∧
    ∀ event, ¬event.isOther → ∀ t, (((sys₀.run events).step event).threads t).cpu.nzcv =
        ((sys₀.run events).threads t).cpu.nzcv := by
  have hinv := run_inv h₀.inv events
  constructor
  · intro t instr store answer hidle hstore
    exact start_outcome hinv answer hidle hstore
  · intro event hev
    exact (step_inv hinv event).2 hev

def zeroSystem : System where
  mem := ⟨fun _ => 0, fun _ => true, fun _ => true⟩
  threads _ := { cpu := ⟨fun _ => 0, ⟨false, false, false, false⟩, {}, 0⟩ }

def armedEvents : List Event :=
  [.start 0 (.loadExclusive 0x885f7c01) ⟨true, ⟨false, false, false, false⟩⟩,
    .start 1 (.loadExclusive 0x885f7c01) ⟨true, ⟨false, false, false, false⟩⟩]

/-- Thread 0's `stxr w2, w1, [x0]` then stores, with the flags read as set after it. -/
theorem exclusive_monitor_zeroSystem : zeroSystem.Fresh ∧ ∃ store, (Instr.storeExclusive 0x88027c01).exclusiveStore?
        ((zeroSystem.run armedEvents).threads 0).cpu = some store ∧
      (zeroSystem.run armedEvents).Holds 0 store ∧
      store.Accessible (zeroSystem.run armedEvents).mem ∧
      StoreOutcome (zeroSystem.run armedEvents) ((zeroSystem.run armedEvents).step
          (.start 0 (.storeExclusive 0x88027c01) ⟨true, ⟨true, true, true, true⟩⟩)) 0 store := by
  have hfresh : zeroSystem.Fresh := ⟨fun _ => rfl, fun _ => rfl, rfl⟩
  refine ⟨hfresh, _, rfl, ⟨.single .i32Bit 0 0, rfl, rfl, rfl, rfl⟩, ⟨rfl, rfl⟩, ?_⟩
  exact (exclusive_monitor hfresh armedEvents).1 0 _ _ _ rfl rfl

end PowerArm.A64
