import PowerArm.Nzcv.ClassifyLaws
import PowerArm.Nzcv.Scan

/-!
# What a DEAD verdict says

A walk that ends DEAD leaves a set of words that control cannot leave before a
flag write (`Closed`), all of them inside the witness. So no guest path from the
target reads a flag or leaves before a flag write, and the verdict is the same
for any memory that agrees on the witness (`scanWitnessed_dead`).
-/

namespace PowerArm.Nzcv

open Decode (Word)

variable {read read' : Memory} {callee callee' : Callee}

/-! ## Witnesses -/

/-- The word at the address lies in the range, or is the last of the address
space, where the end of the range wraps. -/
def Witness.Covers (w : Witness) (pc : BitVec 64) : Prop := w.low ≤ pc ∧ pc < w.high ∨ 2 ^ 64 - 4 ≤ pc.toNat

structure Witness.Le (w w' : Witness) : Prop where
  low : w'.low ≤ w.low
  high : w.high ≤ w'.high

theorem Witness.Le.refl (w : Witness) : w.Le w := ⟨BitVec.le_refl _, BitVec.le_refl _⟩

theorem Witness.Le.trans (h : Witness.Le w w') (h' : w'.Le w'') : w.Le w'' :=
  ⟨BitVec.le_trans h'.low h.low, BitVec.le_trans h.high h'.high⟩

theorem Witness.Covers.mono (h : Witness.Covers w pc) (hle : w.Le w') : w'.Covers pc :=
  h.imp_left fun h => ⟨BitVec.le_trans hle.low h.1, Nat.lt_of_lt_of_le h.2 hle.high⟩

theorem Witness.le_note (w : Witness) (pc : BitVec 64) : w.Le (w.note pc) := by
  refine ⟨?_, ?_⟩
  · unfold note
    split
    · exact BitVec.le_of_lt ‹_›
    · exact BitVec.le_refl _
  · unfold note
    dsimp only
    split
    · exact BitVec.le_of_lt ‹_›
    · exact BitVec.le_refl _

theorem Witness.note_covers (w : Witness) (pc : BitVec 64) : (w.note pc).Covers pc := by
  by_cases htop : 2 ^ 64 - 4 ≤ pc.toNat
  · exact .inr htop
  · left
    have hnext : pc < pc + 4 := by bv_omega
    refine ⟨?_, ?_⟩
    · unfold note
      split
      · exact BitVec.le_refl _
      · exact BitVec.not_lt.mp ‹_›
    · unfold note
      dsimp only
      split
      · exact hnext
      · exact Nat.lt_of_lt_of_le hnext (BitVec.not_lt.mp ‹_›)

/-! ## Guest paths -/

/-- The addresses guest paths from the target reach with no flag write before. -/
inductive Reach (read : Memory) (target : BitVec 64) : BitVec 64 → Prop
  | start : Reach read target target
  | step (h : Reach read target pc) (hread : read pc = some w) (hw : ¬FlagWrite w)
      (hnext : q ∈ successors pc w) : Reach read target q

def Settled (read : Memory) (S : Set (BitVec 64)) (pc : BitVec 64) : Prop :=
  ∃ w, read pc = some w ∧ ((classifyWord w).kind = .writer ∨
    follows (classifyWord w) pc ≠ [] ∧ ∀ q ∈ follows (classifyWord w) pc, q ∈ S)

def Closed (read : Memory) (T : Set (BitVec 64)) : Prop := ∀ pc ∈ T, Settled read T pc

theorem Settled.mono (h : Settled read S pc) (hsub : S ⊆ S') : Settled read S' pc := by
  obtain ⟨w, hr, hw | ⟨hne, hq⟩⟩ := h
  · exact ⟨w, hr, .inl hw⟩
  · exact ⟨w, hr, .inr ⟨hne, fun q hm => hsub (hq q hm)⟩⟩

theorem Closed.reach (h : Closed read T) (ht : target ∈ T) (hpc : Reach read target pc) : pc ∈ T := by
  induction hpc with
  | start => exact ht
  | step _ hread hw hnext ih =>
    obtain ⟨w', hr, hkind | ⟨hne, hq⟩⟩ := h _ ih
    · obtain rfl := Option.some.inj (hread.symm.trans hr)
      exact absurd (flagWrite_of_writer hkind) hw
    · obtain rfl := Option.some.inj (hread.symm.trans hr)
      rw [(passes_of_follows hne).2.2] at hnext
      exact hq _ hnext

/-! ## One word -/

theorem act_go (h : act callee w pc s = .go q s') : ∃ pushed, follows (classifyWord w) pc = q :: pushed ∧
      s' = { s with stack := pushed ++ s.stack } := by
  unfold act at h
  unfold follows
  cases hk : (classifyWord w).kind with
  | neutral | svc | branch =>
    simp only [hk] at h
    obtain ⟨rfl, rfl⟩ := h
    exact ⟨[], rfl, rfl⟩
  | twoway =>
    simp only [hk] at h
    obtain ⟨rfl, rfl⟩ := h
    exact ⟨[pc + (classifyWord w).offset], rfl, rfl⟩
  | call =>
    simp only [hk] at h
    split at h
    · cases h
    · split at h <;> cases h
  | reader | writer | partialWriter | ret | term => simp [hk] at h

theorem act_stop (h : act callee w pc s = .stop s') (hdead : s'.worst = .dead) :
    s.worst = .dead ∧ ((classifyWord w).kind = .writer ∧ s' = s ∨
      (classifyWord w).kind = .call ∧ ∃ scan, callee = some scan ∧
        scan (pc + (classifyWord w).offset) s.witness = (.dead, s'.witness) ∧
        s' = { s with witness := s'.witness }) := by
  unfold act at h
  cases hk : (classifyWord w).kind with
  | neutral | svc | branch | twoway | reader => simp [hk] at h
  | writer =>
    simp only [hk, Act.stop.injEq] at h
    subst h
    exact ⟨hdead, .inl ⟨rfl, rfl⟩⟩
  | partialWriter | ret | term =>
    simp only [hk, Act.stop.injEq] at h
    subst h
    cases hdead
  | call =>
    simp only [hk] at h
    split at h
    · cases h
      cases hdead
    · split at h
      · rename_i scan _ witness hscan
        cases h
        exact ⟨hdead, .inr ⟨rfl, scan, rfl, hscan, rfl⟩⟩
      · cases h
      · cases h
        cases hdead

theorem act_answer (h : act callee w pc s = .answer a) : a.1 = .live := by
  unfold act at h
  dsimp only at h
  split at h
  all_goals try cases h
  · rfl
  · split at h
    · cases h
    · split at h <;> cases h
      rfl

theorem act_stop_frame (h : act callee w pc s = .stop s') : s'.seen = s.seen ∧ s'.stack = s.stack := by
  unfold act at h
  dsimp only at h
  split at h
  all_goals try cases h
  all_goals try exact ⟨rfl, rfl⟩
  split at h
  · cases h
    exact ⟨rfl, rfl⟩
  · split at h <;> cases h <;> exact ⟨rfl, rfl⟩

/-! ## Walks -/

/-- A DEAD callee scan is right about the callee, and stays so on any memory that
agrees on its witness. -/
def CalleeSound (read : Memory) (callee : Callee) : Prop :=
  ∀ scan, callee = some scan → ∀ pc w w', scan pc w = (.dead, w') →
    w.Le w' ∧ ∃ T, Closed read T ∧ pc ∈ T ∧ ∀ q ∈ T, w'.Covers q

/-- While the verdict is DEAD: the words seen and those of DEAD callees lead only
to each other, to the stack and to `todo`, and all are in the witness. -/
def Inv (read : Memory) (s : Scan) (todo : List (BitVec 64)) : Prop :=
  ∃ T : Set (BitVec 64), (∀ pc ∈ s.seen, pc ∈ T) ∧
    (∀ pc ∈ T, Settled read (T ∪ {q | q ∈ todo ∨ q ∈ s.stack}) pc) ∧ ∀ pc ∈ T, s.witness.Covers pc

theorem Inv.seen (h : Inv read s [pc]) (hpc : pc ∈ s.seen) : Inv read s [] := by
  obtain ⟨T, hseen, hset, hcov⟩ := h
  refine ⟨T, hseen, fun q hq => (hset q hq).mono ?_, hcov⟩
  rintro r (hr | hr | hr)
  · exact .inl hr
  · exact .inl (List.mem_singleton.mp hr ▸ hseen pc hpc)
  · exact .inr (.inr hr)

theorem Inv.add (h : Inv read s [pc]) (U : Set (BitVec 64)) (hpc : pc ∈ U)
    (hset : ∀ q ∈ U, Settled read (U ∪ {r | r ∈ todo ∨ r ∈ s'.stack}) q)
    (hcov : ∀ q ∈ U, s'.witness.Covers q) (hle : s.witness.Le s'.witness)
    (hstack : ∀ q ∈ s.stack, q ∈ s'.stack) (hseen : s'.seen = pc :: s.seen) : Inv read s' todo := by
  obtain ⟨T, hT, hTset, hTcov⟩ := h
  refine ⟨T ∪ U, ?_, ?_, ?_⟩
  · intro q hq
    rw [hseen] at hq
    rcases List.mem_cons.mp hq with rfl | hq
    · exact .inr hpc
    · exact .inl (hT q hq)
  · rintro q (hq | hq)
    · refine (hTset q hq).mono ?_
      rintro r (hr | hr | hr)
      · exact .inl (.inl hr)
      · exact .inl (.inr (List.mem_singleton.mp hr ▸ hpc))
      · exact .inr (.inr (hstack r hr))
    · refine (hset q hq).mono ?_
      rintro r (hr | hr)
      · exact .inl (.inr hr)
      · exact .inr hr
  · rintro q (hq | hq)
    · exact (hTcov q hq).mono hle
    · exact hcov q hq

theorem walk_cases (h : walk read callee left pc s = .ok s') :
    pc ∈ s.seen ∧ s' = s ∨ pc ∉ s.seen ∧ ∃ left' w, left = left' + 1 ∧ read pc = some w ∧
      s.seen.length < maxVisitedWords ∧
      ((∃ q s₁, act callee w pc { s with seen := pc :: s.seen, witness := s.witness.note pc } =
          .go q s₁ ∧ walk read callee left' q s₁ = .ok s') ∨
        act callee w pc { s with seen := pc :: s.seen, witness := s.witness.note pc } = .stop s') := by
  unfold walk at h
  split at h
  · cases h
    exact .inl ⟨‹_›, rfl⟩
  · refine .inr ⟨‹_›, ?_⟩
    dsimp only at h
    split at h
    · cases h
    · rename_i hlen
      have hlt : s.seen.length < maxVisitedWords := by
        rw [List.length_cons] at hlen
        omega
      split at h
      · cases h
      · split at h
        · cases h
        · rename_i left' _ w hread
          refine ⟨left', w, rfl, hread, hlt, ?_⟩
          split at h
          · exact .inl ⟨_, _, ‹_›, h⟩
          · cases h
            exact .inr ‹_›
          · cases h

theorem walk_error (h : walk read callee left pc s = .error a) : a.1 ≠ .dead := by
  induction left generalizing pc s with
  | zero =>
    unfold walk at h
    split at h
    · cases h
    · dsimp only at h
      split at h <;> cases h <;> exact nofun
  | succ left ih =>
    unfold walk at h
    split at h
    · cases h
    · dsimp only at h
      split at h
      · cases h
        exact nofun
      · split at h
        · cases h
          exact nofun
        · split at h
          · exact ih h
          · cases h
          · rename_i hact
            cases h
            rw [act_answer hact]
            decide

structure Grown (pc : BitVec 64) (s s' : Scan) : Prop where
  start : pc ∈ s'.seen
  seen : ∀ q ∈ s.seen, q ∈ s'.seen
  stack : ∀ q ∈ s.stack, q ∈ s'.stack
  longer : s.seen.length ≤ s'.seen.length
  pushes : s'.stack.length + s.seen.length ≤ s.stack.length + s'.seen.length
  bound : s.seen.length ≤ maxVisitedWords → s'.seen.length ≤ maxVisitedWords

theorem walk_grown (h : walk read callee left pc s = .ok s') : Grown pc s s' := by
  induction left generalizing pc s with
  | zero =>
    rcases walk_cases h with ⟨hseen, rfl⟩ | ⟨-, _, _, hleft, -⟩
    · exact ⟨hseen, fun _ => id, fun _ => id, Nat.le_refl _, Nat.le_refl _, id⟩
    · cases hleft
  | succ left ih =>
    rcases walk_cases h with ⟨hseen, rfl⟩ | ⟨-, _, w, hleft, -, hlen, hact⟩
    · exact ⟨hseen, fun _ => id, fun _ => id, Nat.le_refl _, Nat.le_refl _, id⟩
    · cases hleft
      rcases hact with ⟨q, s₁, hact, hwalk⟩ | hact
      · obtain ⟨pushed, hfollows, rfl⟩ := act_go hact
        have hone : pushed.length ≤ 1 := by
          unfold follows at hfollows
          split at hfollows <;> cases hfollows <;> simp
        have hg := ih hwalk
        have hpushes := hg.pushes
        simp only [List.length_append, List.length_cons] at hpushes
        exact ⟨hg.seen _ (List.mem_cons_self ..), fun r hr => hg.seen r (List.mem_cons_of_mem _ hr),
          fun r hr => hg.stack r (List.mem_append_right _ hr),
          (Nat.le_succ _).trans hg.longer, by omega, fun _ => hg.bound hlen⟩
      · obtain ⟨hs, hst⟩ := act_stop_frame hact
        refine ⟨by simp [hs], fun r hr => by simp [hs, hr], fun r hr => by simp [hst, hr], by simp [hs], ?_, ?_⟩
        · rw [hs, hst]
          exact Nat.add_le_add_left (Nat.le_succ _) _
        · rw [hs]
          exact fun _ => hlen

theorem walk_inv (hcallee : CalleeSound read callee) (h : walk read callee left pc s = .ok s')
    (hdead : s'.worst = .dead) : s.worst = .dead ∧ s.witness.Le s'.witness ∧ (Inv read s [pc] → Inv read s' []) := by
  induction left generalizing pc s with
  | zero =>
    rcases walk_cases h with ⟨hseen, rfl⟩ | ⟨-, _, _, hleft, -⟩
    · exact ⟨hdead, .refl _, fun hinv => hinv.seen hseen⟩
    · cases hleft
  | succ left ih =>
    rcases walk_cases h with ⟨hseen, rfl⟩ | ⟨-, _, w, hleft, hread, -, hact⟩
    · exact ⟨hdead, .refl _, fun hinv => hinv.seen hseen⟩
    · cases hleft
      have hnote := s.witness.le_note pc
      have hpc := s.witness.note_covers pc
      rcases hact with ⟨q, s₁, hact, hwalk⟩ | hact
      · obtain ⟨hworst, hle, hinv⟩ := ih hwalk
        obtain ⟨pushed, hfollows, rfl⟩ := act_go hact
        refine ⟨hworst, hnote.trans hle, fun h => hinv (h.add {pc} rfl ?_ ?_ hnote ?_ rfl)⟩
        · rintro _ rfl
          refine ⟨w, hread, .inr ⟨by simp [hfollows], fun r hr => ?_⟩⟩
          rw [hfollows] at hr
          rcases List.mem_cons.mp hr with rfl | hr
          · exact .inr (.inl (List.mem_singleton_self _))
          · exact .inr (.inr (List.mem_append_left _ hr))
        · rintro _ rfl
          exact hpc
        · exact fun r hr => List.mem_append_right _ hr
      · obtain ⟨hworst, ⟨hkind, rfl⟩ | ⟨hkind, scan, hsome, hscan, hs'⟩⟩ := act_stop hact hdead
        · refine ⟨hworst, hnote, fun h => h.add {pc} rfl ?_ ?_ hnote (fun r hr => hr) rfl⟩
          · rintro _ rfl
            exact ⟨w, hread, .inl hkind⟩
          · rintro _ rfl
            exact hpc
        · obtain ⟨hle, T, hclosed, htarget, hcov⟩ := hcallee scan hsome _ _ _ hscan
          have hfollows : follows (classifyWord w) pc = [pc + (classifyWord w).offset] := by
            simp only [follows, hkind]
          refine ⟨hworst, hnote.trans hle, fun h => h.add ({pc} ∪ T) (.inl rfl) ?_ ?_
            (hnote.trans hle) ?_ (by rw [hs'])⟩
          · rintro r (rfl | hr)
            · refine ⟨w, hread, .inr ⟨by simp [hfollows], fun r hr => ?_⟩⟩
              rw [hfollows, List.mem_singleton] at hr
              exact .inl (.inr (hr ▸ htarget))
            · exact (hclosed r hr).mono fun x hx => .inl (.inr hx)
          · rintro r (rfl | hr)
            · exact hpc.mono hle
            · exact hcov r hr
          · rw [hs']
            exact fun r hr => hr

/-! ## Memories that agree on the witness -/

def Agree (w : Witness) (read read' : Memory) : Prop := ∀ pc, w.Covers pc → read' pc = read pc

theorem Agree.mono (h : Agree w' read read') (hle : w.Le w') : Agree w read read' :=
  fun pc hpc => h pc (hpc.mono hle)

/-- The callee scans answer DEAD alike on memories that agree on the witness. -/
def CalleeAgree (read read' : Memory) (callee callee' : Callee) : Prop :=
  ∀ scan, callee = some scan → ∃ scan', callee' = some scan' ∧ ∀ pc w w',
    scan pc w = (.dead, w') → Agree w' read read' → scan' pc w = (.dead, w')

theorem act_go_callee (h : act callee w pc s = .go q s') : act callee' w pc s = .go q s' := by
  unfold act at h ⊢
  cases hk : (classifyWord w).kind with
  | call =>
    simp only [hk] at h
    split at h
    · cases h
    · split at h <;> cases h
  | _ => simpa only [hk] using h

theorem act_stop_callee (hag : CalleeAgree read read' callee callee')
    (h : act callee w pc s = .stop s') (hdead : s'.worst = .dead)
    (hread : Agree s'.witness read read') : act callee' w pc s = .stop s' := by
  obtain ⟨-, ⟨hkind, rfl⟩ | ⟨hkind, scan, hsome, hscan, hs'⟩⟩ := act_stop h hdead
  · simp only [act, hkind]
  · obtain ⟨scan', hsome', hdead'⟩ := hag scan hsome
    simp only [act, hkind, hsome', hdead' _ _ _ hscan hread]
    rw [hs']

theorem walk_congr (hcallee : CalleeSound read callee) (hag : CalleeAgree read read' callee callee')
    (h : walk read callee left pc s = .ok s') (hdead : s'.worst = .dead)
    (hread : Agree s'.witness read read') : walk read' callee' left pc s = .ok s' := by
  induction left generalizing pc s with
  | zero =>
    rcases walk_cases h with ⟨hseen, rfl⟩ | ⟨-, _, _, hleft, -⟩
    · rw [walk, if_pos hseen]
    · cases hleft
  | succ left ih =>
    rcases walk_cases h with ⟨hseen, rfl⟩ | ⟨hseen, _, w, hleft, hw, hlen, hact⟩
    · rw [walk, if_pos hseen]
    · cases hleft
      have hover : ¬maxVisitedWords < (pc :: s.seen).length := by
        rw [List.length_cons]
        omega
      rw [walk, if_neg hseen]
      rw [if_neg hover]
      rcases hact with ⟨q, s₁, hact, hwalk⟩ | hact
      · obtain ⟨-, hle₁, -⟩ := walk_inv hcallee hwalk hdead
        obtain ⟨pushed, -, rfl⟩ := act_go hact
        have hsame : read' pc = some w := by rw [hread pc ((s.witness.note_covers pc).mono hle₁), hw]
        simp only [hsame, act_go_callee hact]
        exact ih hwalk
      · have hcov : s'.witness.Covers pc := by
          obtain ⟨-, ⟨-, rfl⟩ | ⟨-, scan, hsome, hscan, -⟩⟩ := act_stop hact hdead
          · exact s.witness.note_covers pc
          · exact (s.witness.note_covers pc).mono (hcallee scan hsome _ _ _ hscan).1
        have hsame : read' pc = some w := by rw [hread pc hcov, hw]
        simp only [hsame, act_stop_callee hag hact hdead hread]

/-! ## Scans -/

theorem Inv.closed (h : Inv read s []) (hstack : s.stack = []) : ∃ T, Closed read T ∧
    (∀ pc ∈ s.seen, pc ∈ T) ∧ ∀ pc ∈ T, s.witness.Covers pc := by
  obtain ⟨T, hseen, hset, hcov⟩ := h
  refine ⟨T, fun pc hpc => (hset pc hpc).mono ?_, hseen, hcov⟩
  rintro r (hr | hr | hr)
  · exact hr
  · cases hr
  · rw [hstack] at hr
    cases hr

theorem Inv.pop (h : Inv read s []) (hstack : s.stack = pc :: rest) : Inv read { s with stack := rest } [pc] := by
  obtain ⟨T, hseen, hset, hcov⟩ := h
  refine ⟨T, hseen, fun q hq => (hset q hq).mono ?_, hcov⟩
  rintro r (hr | hr | hr)
  · exact .inl hr
  · cases hr
  · rw [hstack] at hr
    rcases List.mem_cons.mp hr with rfl | hr
    · exact .inr (.inl (List.mem_singleton_self _))
    · exact .inr (.inr hr)

theorem drain_inv (hcallee : CalleeSound read callee) (h : drain read callee fuel s = (.dead, w')) :
    s.worst = .dead ∧ s.witness.Le w' ∧ (Inv read s [] → ∃ T, Closed read T ∧
      (∀ pc ∈ s.seen, pc ∈ T) ∧ (∀ pc ∈ s.stack, pc ∈ T) ∧ ∀ pc ∈ T, w'.Covers pc) := by
  induction fuel generalizing s with
  | zero => cases h
  | succ fuel ih =>
    unfold drain at h
    split at h
    · rename_i hstack
      obtain ⟨hworst, rfl⟩ := Prod.mk.inj h
      refine ⟨hworst, .refl _, fun hinv => ?_⟩
      obtain ⟨T, hclosed, hseen, hcov⟩ := hinv.closed hstack
      exact ⟨T, hclosed, hseen, by simp [hstack], hcov⟩
    · rename_i pc rest hstack
      split at h
      · rename_i s₁ hwalk
        obtain ⟨hworst, hle, hrest⟩ := ih h
        obtain ⟨hworst', hle', hinv⟩ := walk_inv hcallee hwalk hworst
        have hg := walk_grown hwalk
        refine ⟨hworst', hle'.trans hle, fun h => ?_⟩
        obtain ⟨T, hclosed, hseen, hst, hcov⟩ := hrest (hinv (h.pop hstack))
        refine ⟨T, hclosed, fun q hq => hseen q (hg.seen q hq), fun q hq => ?_, hcov⟩
        rw [hstack] at hq
        rcases List.mem_cons.mp hq with rfl | hq
        · exact hseen q hg.start
        · exact hst q (hg.stack q hq)
      · rename_i a hwalk
        exact absurd (congrArg Prod.fst h) (walk_error hwalk)

theorem drain_congr (hcallee : CalleeSound read callee) (hag : CalleeAgree read read' callee callee')
    (h : drain read callee fuel s = (.dead, w')) (hread : Agree w' read read') :
    drain read' callee' fuel s = (.dead, w') := by
  induction fuel generalizing s with
  | zero => cases h
  | succ fuel ih =>
    unfold drain at h ⊢
    split at h
    · exact h
    · split at h
      · rename_i s₁ hwalk
        obtain ⟨hworst, hle, -⟩ := drain_inv hcallee h
        rw [walk_congr hcallee hag hwalk hworst (hread.mono hle)]
        exact ih h
      · rename_i a hwalk
        exact absurd (congrArg Prod.fst h) (walk_error hwalk)

theorem drain_fuel (hfuel : s.stack.length + 2 * (maxVisitedWords - s.seen.length) < fuel)
    (hseen : s.seen.length ≤ maxVisitedWords) : drain read callee (fuel + 1) s = drain read callee fuel s := by
  induction fuel generalizing s with
  | zero => cases hfuel
  | succ fuel ih =>
    rw [drain]
    conv_rhs => rw [drain]
    split
    · rfl
    · rename_i pc rest hstack
      split
      · rename_i s₁ hwalk
        have hg := walk_grown hwalk
        have hpushes := hg.pushes
        have hbound := hg.bound hseen
        rw [hstack, List.length_cons] at hfuel
        have hmore := hg.longer
        dsimp only at hpushes hmore
        exact ih (by omega) hbound
      · rfl

theorem scanFrom_dead (hcallee : CalleeSound read callee) (h : scanFrom read callee target w = (.dead, w')) :
    w.Le w' ∧ ∃ T, Closed read T ∧ target ∈ T ∧ ∀ pc ∈ T, w'.Covers pc := by
  obtain ⟨-, hle, hinv⟩ := drain_inv hcallee h
  obtain ⟨T, hclosed, -, hstack, hcov⟩ := hinv ⟨∅, by simp, by simp, by simp⟩
  exact ⟨hle, T, hclosed, hstack target (List.mem_singleton_self _), hcov⟩

theorem calleeSound_none : CalleeSound read none := nofun

theorem calleeSound_follow (followBL : Bool) :
    CalleeSound read (if followBL then some (scanFrom read none) else none) := by
  cases followBL with
  | false => exact calleeSound_none
  | true =>
    rintro scan hsome pc w w' hscan
    cases hsome
    exact scanFrom_dead calleeSound_none hscan

theorem calleeAgree_none : CalleeAgree read read' none none := nofun

theorem calleeAgree_follow (followBL : Bool) : CalleeAgree read read'
    (if followBL then some (scanFrom read none) else none)
    (if followBL then some (scanFrom read' none) else none) := by
  cases followBL with
  | false => exact calleeAgree_none
  | true =>
    rintro scan hsome
    cases hsome
    refine ⟨_, rfl, fun pc w w' hscan hread => ?_⟩
    exact drain_congr calleeSound_none calleeAgree_none hscan hread

/-- A DEAD verdict: wherever a guest path from the target gets before a flag
write, the word is in the witness and is a flag write, or reads no flag and does
not leave; and the verdict depends on no word outside the witness. -/
theorem scanWitnessed_dead (h : scanWitnessed target followBL read {} = (.dead, out)) :
    (∀ pc, Reach read target pc → ∃ w, read pc = some w ∧ out.Covers pc ∧
      (FlagWrite w ∨ flagUse w ≠ .reads ∧ flow w ≠ .leave)) ∧
    ∀ read', Agree out read read' → scanWitnessed target followBL read' {} = (.dead, out) := by
  refine ⟨fun pc hpc => ?_, fun read' hread => ?_⟩
  · obtain ⟨-, T, hclosed, htarget, hcov⟩ := scanFrom_dead (calleeSound_follow followBL) h
    have hmem := hclosed.reach htarget hpc
    obtain ⟨w, hw, hkind | ⟨hne, -⟩⟩ := hclosed pc hmem
    · exact ⟨w, hw, hcov pc hmem, .inl (flagWrite_of_writer hkind)⟩
    · obtain ⟨huse, hflow, -⟩ := passes_of_follows hne
      exact ⟨w, hw, hcov pc hmem, .inr ⟨huse, hflow⟩⟩
  · exact drain_congr (calleeSound_follow followBL) (calleeAgree_follow followBL) h hread

def compareMemory : Memory := fun pc =>
  if pc = 0xffc then some 0xB4000041 else if pc = 0x1000 then some 0xEB01001F
  else if pc = 0x1004 then some 0xEB01001F else none

theorem scanWitnessed_dead_compare : scanWitnessed 0xffc false compareMemory {} = (.dead, ⟨0xffc, 0x1008⟩) ∧
    ∀ pc, Reach compareMemory 0xffc pc → ∃ w, compareMemory pc = some w ∧
      Witness.Covers ⟨0xffc, 0x1008⟩ pc ∧ (FlagWrite w ∨ flagUse w ≠ .reads ∧ flow w ≠ .leave) := by
  have h : scanWitnessed 0xffc false compareMemory {} = (.dead, ⟨0xffc, 0x1008⟩) := by decide
  exact ⟨h, (scanWitnessed_dead h).1⟩

def oneWord (address : BitVec 64) (word : Word) : Memory :=
  fun pc => if pc = address then some word else none

def udfMemory : Memory := fun pc =>
  if pc = 0 then some 0 else if pc = 4 then some 0xEB01001F else none

/-- Three DEAD verdicts: on `B .`, where the guest never executes a flag write; on
a `UDF` before the flag write, which passes for a neutral word; and on a flag write
in the last word of the address space, which the witness range misses. -/
theorem scanWitnessed_dead_limits : (scanWitnessed 0 false (oneWord 0 0x14000000) {} = (.dead, ⟨0, 4⟩) ∧
      ∃ path : Nat → BitVec 64, path 0 = 0 ∧ ∀ n, ∃ w, oneWord 0 0x14000000 (path n) = some w ∧
        flagUse w ≠ .writesAll ∧ path (n + 1) ∈ successors (path n) w) ∧
    (scanWitnessed 0 false udfMemory {} = (.dead, ⟨0, 8⟩) ∧ (classifyWord 0).kind = .neutral) ∧
    ∃ out, scanWitnessed (-4) false (oneWord (-4) 0xEB01001F) {} = (.dead, out) ∧ ¬(-4#64 < out.high) := by
  have huse : flagUse 0x14000000 ≠ .writesAll := by decide +kernel
  have hloop : (0 : BitVec 64) ∈ successors 0 0x14000000 := by decide +kernel
  exact ⟨⟨by decide, fun _ => 0, rfl, fun _ => ⟨0x14000000, rfl, huse, hloop⟩⟩,
    ⟨by decide, by decide⟩, ⟨-4, 0⟩, by decide, by decide⟩

end PowerArm.Nzcv
