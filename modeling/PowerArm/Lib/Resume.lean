import Mathlib

/-!
# Resumable computations

A computation on a local state that stops at each request to a shared one. `Act` is the
monad such computations are written in. `run` serves every request in turn from one
world, and a refused request leaves the local state as it was when the request was made.
`Always` and `Settles` are properties of every place where a computation stops, and
`Act.Keeps` is the rule set for the first.
-/

namespace PowerArm.Lib

inductive Resume (σ op reply α : Type) where
  | ret (a : α) (s : σ)
  | ask (s : σ) (request : op) (next : reply → Resume σ op reply α)

/-- How a run ends: with a result, or at the request that was refused. -/
inductive Outcome (σ op μ α : Type) where
  | done (a : α) (s : σ) (m : μ)
  | refused (request : op) (s : σ) (m : μ)

namespace Resume

variable {σ op reply μ α β γ : Type}

def bind : Resume σ op reply α → (α → σ → Resume σ op reply β) → Resume σ op reply β
  | .ret a s, f => f a s
  | .ask s r next, f => .ask s r fun x => (next x).bind f

@[simp] theorem bind_ret (a : α) (s : σ) (f : α → σ → Resume σ op reply β) : (Resume.ret a s).bind f = f a s := rfl

@[simp] theorem bind_ask (s : σ) (r : op) (next : reply → Resume σ op reply α) (f : α → σ → Resume σ op reply β) :
    (Resume.ask s r next).bind f = .ask s r fun x => (next x).bind f := rfl

theorem bind_bind (p : Resume σ op reply α) (f : α → σ → Resume σ op reply β) (g : β → σ → Resume σ op reply γ) :
    (p.bind f).bind g = p.bind fun a s => (f a s).bind g := by
  induction p with
  | ret a s => rfl
  | ask s r next ih => simp [ih]

def run (serve : μ → op → Option (reply × μ)) : Resume σ op reply α → μ → Outcome σ op μ α
  | .ret a s, m => .done a s m
  | .ask s r next, m =>
    match serve m r with
    | none => .refused r s m
    | some (x, m) => (next x).run serve m

theorem run_bind (serve : μ → op → Option (reply × μ)) (p : Resume σ op reply α)
    (f : α → σ → Resume σ op reply β) (m : μ) :
    (p.bind f).run serve m = match p.run serve m with
      | .done a s m => (f a s).run serve m
      | .refused r s m => .refused r s m := by
  induction p generalizing m with
  | ret a s => rfl
  | ask s r next ih =>
    simp only [bind_ask, run]
    cases serve m r with
    | none => rfl
    | some xm => exact ih _ _

theorem run_bind_eq_done {serve : μ → op → Option (reply × μ)} {p : Resume σ op reply α}
    {f : α → σ → Resume σ op reply β} :
    (p.bind f).run serve m = .done b s m' ↔
      ∃ a s₁ m₁, p.run serve m = .done a s₁ m₁ ∧ (f a s₁).run serve m₁ = .done b s m' := by
  rw [run_bind]
  cases p.run serve m with
  | done a s₁ m₁ => simp
  | refused r s₁ m₁ => simp

@[simp] theorem run_ret_eq_done : (Resume.ret a s : Resume σ op reply α).run serve m = .done b s' m' ↔
      b = a ∧ s' = s ∧ m' = m := by
  simp [run, eq_comm]

theorem run_ask_eq_done : (Resume.ask s r next).run serve m = .done b s' m' ↔
      ∃ x m₁, serve m r = some (x, m₁) ∧ (next x).run serve m₁ = .done b s' m' := by
  rw [run]
  cases serve m r with
  | none => simp
  | some xm =>
    obtain ⟨x, m₁⟩ := xm
    constructor
    · intro h
      exact ⟨x, m₁, rfl, h⟩
    · rintro ⟨_, _, ⟨⟩, h⟩
      exact h

def Always (P : σ → Prop) : Resume σ op reply α → Prop
  | .ret _ s => P s
  | .ask s _ next => P s ∧ ∀ x, (next x).Always P

theorem Always.bind {P : σ → Prop} {p : Resume σ op reply α} {f : α → σ → Resume σ op reply β} (hp : p.Always P)
    (hf : ∀ a s, P s → (f a s).Always P) : (p.bind f).Always P := by
  induction p with
  | ret a s => exact hf a s hp
  | ask s r next ih => exact ⟨hp.1, fun x => ih x (hp.2 x)⟩

/-- `Q` holds wherever the computation can end, of what it has asked and been told, of
whether it ends by itself or at a refused request, and of the local state there. Only
replies that are `possible` are considered. -/
def Settles (possible : op → reply → Prop) (Q : List (op × reply) → Bool → σ → Prop) :
    List (op × reply) → Resume σ op reply α → Prop
  | trace, .ret _ s => Q trace true s
  | trace, .ask s r next => Q trace false s ∧ ∀ x, possible r x → (next x).Settles possible Q (trace ++ [(r, x)])

theorem Always.settles {P : σ → Prop} {Q : List (op × reply) → Bool → σ → Prop}
    {possible : op → reply → Prop} {p : Resume σ op reply α} (h : p.Always P)
    (hQ : ∀ trace finished s, P s → Q trace finished s) (trace : List (op × reply)) : p.Settles possible Q trace := by
  induction p generalizing trace with
  | ret a s => exact hQ _ _ _ h
  | ask s r next ih => exact ⟨hQ _ _ _ h.1, fun x _ => ih x (h.2 x) _⟩

end Resume

def Act (σ op reply α : Type) := σ → Resume σ op reply α

namespace Act

variable {σ op reply α β γ : Type}

instance : Monad (Act σ op reply) where
  pure a := fun s => .ret a s
  bind m f := fun s => (m s).bind f

@[simp] theorem pure_apply (a : α) (s : σ) : (pure a : Act σ op reply α) s = .ret a s := rfl

@[simp] theorem bind_apply (m : Act σ op reply α) (f : α → Act σ op reply β) (s : σ) :
    (m >>= f) s = (m s).bind fun a s => f a s := rfl

theorem bind_assoc (m : Act σ op reply α) (f : α → Act σ op reply β) (g : β → Act σ op reply γ) :
    (m >>= f) >>= g = m >>= fun a => f a >>= g :=
  funext fun s => Resume.bind_bind (m s) f g

def gets (f : σ → α) : Act σ op reply α := fun s => .ret (f s) s

def modify (f : σ → σ) : Act σ op reply Unit := fun s => .ret () (f s)

def request (r : op) : Act σ op reply reply := fun s => .ask s r fun x => .ret x s

@[simp] theorem gets_apply (f : σ → α) (s : σ) : (gets f : Act σ op reply α) s = .ret (f s) s := rfl

@[simp] theorem modify_apply (f : σ → σ) (s : σ) : (modify f : Act σ op reply Unit) s = .ret () (f s) := rfl

@[simp] theorem request_apply (r : op) (s : σ) :
    (request r : Act σ op reply reply) s = .ask s r fun x => .ret x s := rfl

def Keeps (P : σ → Prop) (m : Act σ op reply α) : Prop := ∀ s, P s → (m s).Always P

variable {P : σ → Prop}

theorem Keeps.pure (a : α) : Keeps P (pure a : Act σ op reply α) := fun _ h => h

theorem Keeps.gets (f : σ → α) : Keeps P (gets f : Act σ op reply α) := fun _ h => h

theorem Keeps.modify (hf : ∀ s, P s → P (f s)) : Keeps P (modify f : Act σ op reply Unit) := fun s h => hf s h

theorem Keeps.request (r : op) : Keeps P (request r : Act σ op reply reply) :=
  fun _ h => ⟨h, fun _ => h⟩

theorem Keeps.bind {m : Act σ op reply α} {f : α → Act σ op reply β} (hm : Keeps P m)
    (hf : ∀ a, Keeps P (f a)) : Keeps P (m >>= f) :=
  fun s h => (hm s h).bind fun a => hf a

end Act

end PowerArm.Lib
