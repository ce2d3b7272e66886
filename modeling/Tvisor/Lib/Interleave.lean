/-
# Tvisor.Lib.Interleave -- atomic operations under every interleaving

Code that shares memory through atomics is a program of single atomic operations: a load, a store,
a compare-exchange or a swap. `Prog` is the type of such programs, and a `System` runs them: threads
start calls, each step performs one operation of one running call, and a call returns when its
program has ended. Memory is sequentially consistent and the choice of the next thread is free, so
`Reach` has every interleaving of every client that the start conditions admit.

Nothing is forgotten on the way: a configuration has the history of all events, so "this store was
made by that call" is a fact about a state. A call is named by an `Invocation`, with its number and
the memory it found when it began.

The second half is the logic. An `Outline` gives the invariant, what every step guarantees and what
a thread may rely on while it is inside a call. `Safe` says that a program, from here on, keeps its
side whatever the others do; `Triple` is the rule form, with one rule for each operation. `sound`
turns an outline for the code of every call into facts about every reachable step.
-/
import Mathlib.Logic.Function.Basic
import Mathlib.Logic.Relation

namespace Interleave

variable {Loc : Type} {Val : Loc → Type} {Tid Call Reply Env ε A B : Type}

/-! ## Programs -/

variable {l : Loc}

/-- One atomic operation, with what it read. -/
inductive Action (Val : Loc → Type) where
  | load (l : Loc) (v : Val l)
  | store (l : Loc) (v : Val l)
  | exchange (l : Loc) (expected new : Val l) (success : Bool)
  | swap (l : Loc) (new old : Val l)

/-- The memory after the operation. -/
def Action.apply [DecidableEq Loc] : Action Val → (∀ l, Val l) → (∀ l, Val l)
  | .load _ _, m => m
  | .store l v, m => Function.update m l v
  | .exchange l _ new true, m => Function.update m l new
  | .exchange _ _ _ false, m => m
  | .swap l new _, m => Function.update m l new

/-- The location that the operation uses. -/
def Action.loc : Action Val → Loc
  | .load l _ | .store l _ | .exchange l _ _ _ | .swap l _ _ => l

/-- What the operation read is what is there. -/
def Action.Enabled : Action Val → (∀ l, Val l) → Prop
  | .load l v, m => v = m l
  | .store _ _, _ => True
  | .exchange l expected _ success, m => success = true ↔ m l = expected
  | .swap l _ old, m => old = m l

/-- An operation that writes nothing: a load or an exchange that did not take place. -/
def Action.IsRead : Action Val → Prop
  | .load _ _ => True
  | .exchange _ _ _ success => success = false
  | .store _ _ | .swap _ _ _ => False

variable {a : Action Val}

theorem Action.IsRead.apply_eq [DecidableEq Loc] (h : a.IsRead) (m : ∀ l, Val l) :
    a.apply m = m := by
  cases a with
  | load l v => rfl
  | exchange l expected new success =>
    cases success with
    | true => cases h
    | false => rfl
  | store l v => cases h
  | swap l new old => cases h

/-- A load, whatever it reads. -/
def Action.IsLoad (a : Action Val) : Prop := ∃ l v, a = .load l v

theorem Action.IsLoad.isRead (h : a.IsLoad) : a.IsRead := by
  obtain ⟨l, v, rfl⟩ := h
  trivial

/-! An operation writes its own location only. -/

section Apply

variable [DecidableEq Loc]

theorem Action.apply_of_ne (a : Action Val) (h : l ≠ a.loc) (m : ∀ l, Val l) :
    a.apply m l = m l := by
  cases a with
  | load l' v => rfl
  | store l' v | swap l' new old => exact Function.update_of_ne h _ _
  | exchange l' expected new success =>
    rcases success with _ | _
    · rfl
    · exact Function.update_of_ne h _ _

@[simp] theorem Action.apply_store_self (l : Loc) (v : Val l) (m : ∀ l, Val l) :
    (Action.store l v).apply m l = v := Function.update_self l v m

@[simp] theorem Action.apply_exchange_self (l : Loc) (expected new : Val l) (m : ∀ l, Val l) :
    (Action.exchange l expected new true).apply m l = new := Function.update_self l new m

@[simp] theorem Action.apply_swap_self (l : Loc) (new old : Val l) (m : ∀ l, Val l) :
    (Action.swap l new old).apply m l = new := Function.update_self l new m

end Apply

/-- An operation on some of the locations as one on all of them. -/
def Action.embed {Loc' : Type} {Val' : Loc' → Type} (f : Loc → Loc') :
    Action (fun l => Val' (f l)) → Action Val'
  | .load l v => .load (f l) v
  | .store l v => .store (f l) v
  | .exchange l expected new success => .exchange (f l) expected new success
  | .swap l new old => .swap (f l) new old

theorem Action.embed_loc {Loc' : Type} {Val' : Loc' → Type} (f : Loc → Loc')
    (a : Action fun l => Val' (f l)) : (a.embed f).loc = f a.loc := by
  cases a <;> rfl

theorem Action.IsLoad.embed {Loc' : Type} {Val' : Loc' → Type} {f : Loc → Loc'}
    {a : Action fun l => Val' (f l)} (h : a.IsLoad) : (a.embed f).IsLoad := by
  obtain ⟨l, v, rfl⟩ := h
  exact ⟨f l, v, rfl⟩

/-- A program of atomic operations. -/
inductive Prog (Val : Loc → Type) (A : Type) where
  | ret (a : A)
  | load (l : Loc) (k : Val l → Prog Val A)
  | store (l : Loc) (v : Val l) (k : Prog Val A)
  | exchange (l : Loc) (expected new : Val l) (k : Bool → Prog Val A)
  | swap (l : Loc) (new : Val l) (k : Val l → Prog Val A)

namespace Prog

def bind : Prog Val A → (A → Prog Val B) → Prog Val B
  | .ret a, f => f a
  | .load l k, f => .load l fun v => (k v).bind f
  | .store l v k, f => .store l v (k.bind f)
  | .exchange l e n k, f => .exchange l e n fun b => (k b).bind f
  | .swap l n k, f => .swap l n fun v => (k v).bind f

instance : Monad (Prog Val) where
  pure := .ret
  bind := Prog.bind

theorem bind_assoc {C : Type} (p : Prog Val A) (f : A → Prog Val B) (g : B → Prog Val C) :
    p.bind f >>= g = p.bind fun a => f a >>= g := by
  induction p with
  | ret a => rfl
  | load l k ih => exact congrArg (Prog.load l) (funext ih)
  | store l v k ih => exact congrArg (Prog.store l v) ih
  | exchange l e n k ih => exact congrArg (Prog.exchange l e n) (funext ih)
  | swap l n k ih => exact congrArg (Prog.swap l n) (funext ih)

theorem bind_pure (p : Prog Val A) : p >>= pure = p := by
  induction p with
  | ret a => rfl
  | load l k ih => exact congrArg (Prog.load l) (funext ih)
  | store l v k ih => exact congrArg (Prog.store l v) ih
  | exchange l e n k ih => exact congrArg (Prog.exchange l e n) (funext ih)
  | swap l n k ih => exact congrArg (Prog.swap l n) (funext ih)

instance : LawfulMonad (Prog Val) :=
  LawfulMonad.mk' (Prog Val) bind_pure (fun _ _ => rfl) bind_assoc

theorem run_bind_lift (p : Prog Val A) (f : A → ExceptT ε (Prog Val) B) :
    ((liftM p : ExceptT ε (Prog Val) A) >>= f).run = p >>= fun a => (f a).run :=
  bind_assoc p _ _

/-- The next operation and the program after it. -/
def step [∀ l, DecidableEq (Val l)] :
    Prog Val A → (∀ l, Val l) → Option (Action Val × Prog Val A)
  | .ret _, _ => none
  | .load l k, m => some (.load l (m l), k (m l))
  | .store l v k, _ => some (.store l v, k)
  | .exchange l e n k, m =>
      some (.exchange l e n (decide (m l = e)), k (decide (m l = e)))
  | .swap l n k, m => some (.swap l n (m l), k (m l))

/-- A program on some of the locations as a program on all of them. -/
def embed {Loc' : Type} {Val' : Loc' → Type} (f : Loc → Loc') :
    Prog (fun l => Val' (f l)) A → Prog Val' A
  | .ret a => .ret a
  | .load l k => .load (f l) fun v => (k v).embed f
  | .store l v k => .store (f l) v (k.embed f)
  | .exchange l e n k => .exchange (f l) e n fun b => (k b).embed f
  | .swap l n k => .swap (f l) n fun v => (k v).embed f

/-- Every operation the program can come to, whatever it reads, satisfies `ok`, and every result
satisfies `Q`. -/
def Forall (ok : Action Val → Prop) (Q : A → Prop) : Prog Val A → Prop
  | .ret a => Q a
  | .load l k => ∀ v, ok (.load l v) ∧ (k v).Forall ok Q
  | .store l v k => ok (.store l v) ∧ k.Forall ok Q
  | .exchange l e n k => ∀ b, ok (.exchange l e n b) ∧ (k b).Forall ok Q
  | .swap l n k => ∀ v, ok (.swap l n v) ∧ (k v).Forall ok Q

/-- The same where nothing is said about results. -/
abbrev Only (ok : Action Val → Prop) (p : Prog Val A) : Prop := p.Forall ok fun _ => True

theorem Forall.embed {Loc' : Type} {Val' : Loc' → Type} {f : Loc → Loc'}
    {ok : Action Val' → Prop} {Q : A → Prop} {p : Prog (fun l => Val' (f l)) A}
    (h : p.Forall (fun a => ok (a.embed f)) Q) : (p.embed f).Forall ok Q := by
  induction p with
  | ret a => exact h
  | load l k ih | swap l n k ih => exact fun v => ⟨(h v).1, ih v (h v).2⟩
  | store l v k ih => exact ⟨h.1, ih h.2⟩
  | exchange l e n k ih => exact fun b => ⟨(h b).1, ih b (h b).2⟩

variable {ok : Action Val → Prop} {Q : A → Prop} {Q' : B → Prop}
  {p : Prog Val A} {x : ExceptT ε (Prog Val) A} {f : A → ExceptT ε (Prog Val) B}

theorem Forall.bind {f : A → Prog Val B} (h : p.Forall ok Q) (hf : ∀ a, Q a → (f a).Forall ok Q') :
    (p >>= f).Forall ok Q' := by
  induction p with
  | ret a => exact hf a h
  | load l k ih | swap l n k ih => exact fun v => ⟨(h v).1, ih v (h v).2⟩
  | store l v k ih => exact ⟨h.1, ih h.2⟩
  | exchange l e n k ih => exact fun b => ⟨(h b).1, ih b (h b).2⟩

theorem Forall.allM {α : Type} {xs : List α} {f : α → Prog Val Bool}
    (h : ∀ x ∈ xs, (f x).Only ok) : (xs.allM f).Only ok := by
  induction xs with
  | nil => trivial
  | cons x xs ih =>
    refine (h x List.mem_cons_self).bind fun b _ => ?_
    rcases b with _ | _
    · trivial
    · exact ih fun y hy => h y (List.mem_cons_of_mem x hy)

theorem Forall.mono {ok' : Action Val → Prop} (h : p.Forall ok Q) (himp : ∀ a, ok a → ok' a) :
    p.Forall ok' Q := by
  induction p with
  | ret a => exact h
  | load l k ih | swap l n k ih => exact fun v => ⟨himp _ (h v).1, ih v (h v).2⟩
  | store l v k ih => exact ⟨himp _ h.1, ih h.2⟩
  | exchange l e n k ih => exact fun b => ⟨himp _ (h b).1, ih b (h b).2⟩

theorem Forall.any (p : Prog Val A) : p.Only (fun _ => True) := by
  induction p with
  | ret a => trivial
  | load l k ih | swap l n k ih => exact fun v => ⟨trivial, ih v⟩
  | store l v k ih => exact ⟨trivial, ih⟩
  | exchange l e n k ih => exact fun b => ⟨trivial, ih b⟩

theorem Forall.run_bind {Q : Except ε A → Prop} {Q' : Except ε B → Prop} (h : x.run.Forall ok Q)
    (hok : ∀ a, Q (.ok a) → (f a).run.Forall ok Q') (herror : ∀ e, Q (.error e) → Q' (.error e)) :
    (x >>= f).run.Forall ok Q' :=
  Forall.bind h fun
    | .ok a => hok a
    | .error e => herror e

theorem Forall.run_bind_lift {Q' : Except ε B → Prop} (h : p.Forall ok Q)
    (hf : ∀ a, Q a → (f a).run.Forall ok Q') :
    ((liftM p : ExceptT ε (Prog Val) A) >>= f).run.Forall ok Q' := by
  rw [Prog.run_bind_lift]
  exact h.bind hf

theorem Forall.andThen (h : x.run.Only ok)
    (hf : ∀ a, (f a).run.Only ok) : (x >>= f).run.Only ok :=
  h.run_bind (fun a _ => hf a) fun _ _ => trivial

theorem Forall.liftThen (h : p.Only ok)
    (hf : ∀ a, (f a).run.Only ok) : ((liftM p : ExceptT ε (Prog Val) A) >>= f).run.Only ok :=
  h.run_bind_lift fun a _ => hf a

end Prog

namespace Atomic

def load (l : Loc) : Prog Val (Val l) := .load l .ret

def store (l : Loc) (v : Val l) : Prog Val Unit := .store l v (.ret ())

/-- Whether the exchange took place. -/
def compareExchange (l : Loc) (expected new : Val l) : Prog Val Bool :=
  .exchange l expected new .ret

def swap (l : Loc) (new : Val l) : Prog Val (Val l) := .swap l new .ret

end Atomic

/-! ## Systems -/

/-- One call in progress or in the past: who makes it, how many events came before it, and the
memory it found when it began. -/
structure Invocation (Val : Loc → Type) (Tid Call : Type) where
  tid : Tid
  number : Nat
  call : Call
  entry : ∀ l, Val l

inductive Event (Val : Loc → Type) (Tid Call Reply : Type) where
  | start (i : Invocation Val Tid Call)
  | act (i : Invocation Val Tid Call) (a : Action Val)
  | ret (i : Invocation Val Tid Call) (r : Reply)

def Event.invocation : Event Val Tid Call Reply → Invocation Val Tid Call
  | .start i | .act i _ | .ret i _ => i

theorem Event.start_ne_act (i j : Invocation Val Tid Call) (a : Action Val) :
    (.start i : Event Val Tid Call Reply) ≠ .act j a := nofun

theorem Event.ret_ne_act (i j : Invocation Val Tid Call) (r : Reply) (a : Action Val) :
    Event.ret i r ≠ .act j a := nofun

/-- Everything but the running programs. The history has the newest event first. -/
structure Shared (Val : Loc → Type) (Tid Call Reply Env : Type) where
  mem : ∀ l, Val l
  env : Env
  history : List (Event Val Tid Call Reply)

namespace Shared

variable (σ : Shared Val Tid Call Reply Env) (i : Invocation Val Tid Call)

/-- The invocation that a call starting now gets. -/
def invoke (t : Tid) (call : Call) : Invocation Val Tid Call := ⟨t, σ.history.length, call, σ.mem⟩

def started (env : Env) : Shared Val Tid Call Reply Env := ⟨σ.mem, env, .start i :: σ.history⟩

def acted [DecidableEq Loc] (a : Action Val) : Shared Val Tid Call Reply Env :=
  ⟨a.apply σ.mem, σ.env, .act i a :: σ.history⟩

def returned (r : Reply) (env : Env) : Shared Val Tid Call Reply Env :=
  ⟨σ.mem, env, .ret i r :: σ.history⟩

theorem acted_mem_of_ne [DecidableEq Loc] (h : l ≠ a.loc) :
    (σ.acted i a).mem l = σ.mem l := a.apply_of_ne h σ.mem

theorem acted_store_self [DecidableEq Loc] (l : Loc) (v : Val l) :
    (σ.acted i (.store l v)).mem l = v := Action.apply_store_self l v σ.mem

theorem acted_exchange_self [DecidableEq Loc] (l : Loc) (expected new : Val l) :
    (σ.acted i (.exchange l expected new true)).mem l = new :=
  Action.apply_exchange_self l expected new σ.mem

end Shared

/-- The code of each call, and the discipline of the client: which calls may start, and what the
client keeps of a reply. -/
structure System (Val : Loc → Type) (Tid Call Reply Env : Type) where
  code : Call → Prog Val Reply
  start : Env → Tid → Call → Option Env
  finish : Env → Tid → Call → Reply → Env

structure Config (Val : Loc → Type) (Tid Call Reply Env : Type) where
  shared : Shared Val Tid Call Reply Env
  frames : Tid → Option (Invocation Val Tid Call × Prog Val Reply)

variable {S : System Val Tid Call Reply Env}

section Runs

variable [DecidableEq Loc] [∀ l, DecidableEq (Val l)] [DecidableEq Tid]

/-- One step: a call starts, performs one operation, or returns. -/
inductive Step (S : System Val Tid Call Reply Env) :
    Config Val Tid Call Reply Env → Event Val Tid Call Reply → Config Val Tid Call Reply Env → Prop
  | start {c : Config Val Tid Call Reply Env} {t : Tid} {call : Call} {env : Env}
      (hidle : c.frames t = none) (hstart : S.start c.shared.env t call = some env) :
      Step S c (.start (c.shared.invoke t call))
        ⟨c.shared.started (c.shared.invoke t call) env,
          Function.update c.frames t (some (c.shared.invoke t call, S.code call))⟩
  | act {c : Config Val Tid Call Reply Env} {t : Tid} {i : Invocation Val Tid Call}
      {p p' : Prog Val Reply} {a : Action Val}
      (hframe : c.frames t = some (i, p)) (hstep : p.step c.shared.mem = some (a, p')) :
      Step S c (.act i a) ⟨c.shared.acted i a, Function.update c.frames t (some (i, p'))⟩
  | ret {c : Config Val Tid Call Reply Env} {t : Tid} {i : Invocation Val Tid Call} {r : Reply}
      (hframe : c.frames t = some (i, .ret r)) :
      Step S c (.ret i r) ⟨c.shared.returned i r (S.finish c.shared.env t i.call r),
        Function.update c.frames t none⟩

/-- Any number of steps. -/
def Steps (S : System Val Tid Call Reply Env) :
    Config Val Tid Call Reply Env → Config Val Tid Call Reply Env → Prop :=
  Relation.ReflTransGen fun c c' => ∃ ev, Step S c ev c'

/-- The configurations that some interleaving leads to. -/
def Reach (S : System Val Tid Call Reply Env) (σ₀ : Shared Val Tid Call Reply Env) :
    Config Val Tid Call Reply Env → Prop :=
  Steps S ⟨σ₀, fun _ => none⟩

/-- What a scheduler picks: a thread and, where it is between calls, the call it makes. -/
inductive Move (Tid Call : Type) where
  | start (t : Tid) (call : Call)
  | next (t : Tid)

/-- The step that a move picks, where there is one. -/
def Config.move (S : System Val Tid Call Reply Env) (c : Config Val Tid Call Reply Env) :
    Move Tid Call → Option (Event Val Tid Call Reply × Config Val Tid Call Reply Env)
  | .start t call =>
      match c.frames t, S.start c.shared.env t call with
      | none, some env =>
          some (.start (c.shared.invoke t call),
            ⟨c.shared.started (c.shared.invoke t call) env,
              Function.update c.frames t (some (c.shared.invoke t call, S.code call))⟩)
      | _, _ => none
  | .next t =>
      match c.frames t with
      | none => none
      | some (i, .ret r) =>
          some (.ret i r, ⟨c.shared.returned i r (S.finish c.shared.env t i.call r),
            Function.update c.frames t none⟩)
      | some (i, p) =>
          (p.step c.shared.mem).map fun (a, p') =>
            (.act i a, ⟨c.shared.acted i a, Function.update c.frames t (some (i, p'))⟩)

/-- Run a schedule. -/
def Config.run (S : System Val Tid Call Reply Env) (c : Config Val Tid Call Reply Env) :
    List (Move Tid Call) → Option (Config Val Tid Call Reply Env)
  | [] => some c
  | m :: ms => (c.move S m).bind fun (_, c') => c'.run S ms

theorem Config.move_step {c c' : Config Val Tid Call Reply Env} {m : Move Tid Call}
    {ev : Event Val Tid Call Reply} (h : c.move S m = some (ev, c')) :
    Step S c ev c' := by
  cases m with
  | start t call =>
    unfold move at h
    rcases hframe : c.frames t with _ | f
    · rcases hstart : S.start c.shared.env t call with _ | env
      · simp [hframe, hstart] at h
      · simp only [hframe, hstart, Option.some.injEq, Prod.mk.injEq] at h
        obtain ⟨rfl, rfl⟩ := h
        exact .start hframe hstart
    · simp [hframe] at h
  | next t =>
    unfold move at h
    rcases hframe : c.frames t with _ | ⟨i, p⟩
    · simp [hframe] at h
    · rcases hp : p.step c.shared.mem with _ | ⟨a, p'⟩
      · cases p with
        | ret r =>
          simp only [hframe, Option.some.injEq, Prod.mk.injEq] at h
          obtain ⟨rfl, rfl⟩ := h
          exact .ret hframe
        | _ => cases hp
      · have hact : some (Event.act i a, (⟨c.shared.acted i a,
            Function.update c.frames t (some (i, p'))⟩ : Config Val Tid Call Reply Env)) =
            some (ev, c') := by
          cases p with
          | ret r => cases hp
          | _ => simpa [hframe, hp] using h
        cases hact
        exact .act hframe hp

theorem Config.run_steps {c c' : Config Val Tid Call Reply Env} {ms : List (Move Tid Call)}
    (h : c.run S ms = some c') : Steps S c c' := by
  induction ms generalizing c with
  | nil =>
    cases h
    exact .refl
  | cons m ms ih =>
    obtain ⟨⟨ev, d⟩, hmove, hrest⟩ := Option.bind_eq_some_iff.mp h
    exact .head ⟨ev, Config.move_step hmove⟩ (ih hrest)

end Runs

/-! ## Outlines -/

variable {σ₀ : Shared Val Tid Call Reply Env} {ι : Type*} {ok : Action Val → Prop}

/-- An invariant, what every step guarantees, and what the others may do while a thread is inside a
call. -/
structure Outline (Val : Loc → Type) (Tid Call Reply Env : Type) where
  Inv : Shared Val Tid Call Reply Env → Prop
  Guar : Shared Val Tid Call Reply Env → Event Val Tid Call Reply →
    Shared Val Tid Call Reply Env → Prop
  Rely : Tid → Shared Val Tid Call Reply Env → Shared Val Tid Call Reply Env → Prop
  rely_refl : ∀ t σ, Rely t σ σ
  rely_trans : ∀ t {σ σ' σ''}, Inv σ' → Rely t σ σ' → Rely t σ' σ'' → Rely t σ σ''

namespace Outline

variable [DecidableEq Loc] (O : Outline Val Tid Call Reply Env)

/-- A step that a thread may make. -/
structure Good (t : Tid) (σ : Shared Val Tid Call Reply Env) (ev : Event Val Tid Call Reply)
    (σ' : Shared Val Tid Call Reply Env) : Prop where
  inv : O.Inv σ'
  guar : O.Guar σ ev σ'
  rely : ∀ t', t' ≠ t → O.Rely t' σ σ'

/-- An operation of a call is good. -/
def Does (i : Invocation Val Tid Call) (σ : Shared Val Tid Call Reply Env) (a : Action Val) :
    Prop :=
  O.Good i.tid σ (.act i a) (σ.acted i a)

/-- A fact that the others cannot take away. -/
def Stable (t : Tid) (P : Shared Val Tid Call Reply Env → Prop) : Prop :=
  ∀ σ σ', O.Inv σ → O.Inv σ' → O.Rely t σ σ' → P σ → P σ'

/-- From this state on, under any interference, every operation of the program is good and it ends
with `Q`. -/
def Safe (i : Invocation Val Tid Call) (Q : A → Shared Val Tid Call Reply Env → Prop) :
    Prog Val A → Shared Val Tid Call Reply Env → Prop
  | .ret a, σ => ∀ σ', O.Inv σ' → O.Rely i.tid σ σ' → Q a σ'
  | .load l k, σ => ∀ σ', O.Inv σ' → O.Rely i.tid σ σ' →
      O.Does i σ' (.load l (σ'.mem l)) ∧
        Safe i Q (k (σ'.mem l)) (σ'.acted i (.load l (σ'.mem l)))
  | .store l v k, σ => ∀ σ', O.Inv σ' → O.Rely i.tid σ σ' →
      O.Does i σ' (.store l v) ∧ Safe i Q k (σ'.acted i (.store l v))
  | .exchange l e n k, σ => ∀ σ', O.Inv σ' → O.Rely i.tid σ σ' →
      ∀ b, (b = true ↔ σ'.mem l = e) →
      O.Does i σ' (.exchange l e n b) ∧
        Safe i Q (k b) (σ'.acted i (.exchange l e n b))
  | .swap l n k, σ => ∀ σ', O.Inv σ' → O.Rely i.tid σ σ' →
      O.Does i σ' (.swap l n (σ'.mem l)) ∧
        Safe i Q (k (σ'.mem l)) (σ'.acted i (.swap l n (σ'.mem l)))

/-- What a call owes at its end: its return is a good step. -/
def Returns (S : System Val Tid Call Reply Env) (i : Invocation Val Tid Call) (r : Reply)
    (σ : Shared Val Tid Call Reply Env) : Prop :=
  O.Good i.tid σ (.ret i r) (σ.returned i r (S.finish σ.env i.tid i.call r))

/-- The outline covers the code: a call may start, and is then safe up to its return. -/
def Proves (S : System Val Tid Call Reply Env) : Prop :=
  ∀ σ t call env, O.Inv σ → S.start σ.env t call = some env →
    O.Good t σ (.start (σ.invoke t call)) (σ.started (σ.invoke t call) env) ∧
      O.Safe (σ.invoke t call) (O.Returns S (σ.invoke t call)) (S.code call)
        (σ.started (σ.invoke t call) env)

/-- Operations that write nothing are good in any state, and the thread itself may rely on them. -/
def Silent : Prop :=
  ∀ i σ a, a.IsRead → O.Inv σ → O.Does i σ a ∧ O.Rely i.tid σ (σ.acted i a)

variable {O} {i : Invocation Val Tid Call} {P : Shared Val Tid Call Reply Env → Prop}
  {Q : A → Shared Val Tid Call Reply Env → Prop} {Q' : B → Shared Val Tid Call Reply Env → Prop}
  {σ σ' : Shared Val Tid Call Reply Env} {p : Prog Val A} {x : ExceptT ε (Prog Val) A}
  {f : A → ExceptT ε (Prog Val) B}

/-! ## Soundness -/

/-- Interference does not end safety. -/
theorem Safe.mono (h : O.Safe i Q p σ) (hinv : O.Inv σ') (hrely : O.Rely i.tid σ σ') :
    O.Safe i Q p σ' := by
  cases p with
  | ret a | load l k | store l v k | exchange l e n k | swap l n k =>
    exact fun σ'' hinv' hr => h σ'' hinv' (O.rely_trans _ hinv hrely hr)

section Soundness

variable [∀ l, DecidableEq (Val l)]

/-- The next operation of a safe program is good, and the rest is safe. -/
theorem Safe.step {p p' : Prog Val A} (h : O.Safe i Q p σ) (hinv : O.Inv σ)
    (hstep : p.step σ.mem = some (a, p')) : O.Does i σ a ∧ O.Safe i Q p' (σ.acted i a) := by
  cases p with
  | ret a => cases hstep
  | load l k | store l v k | swap l n k =>
    cases hstep
    exact h σ hinv (O.rely_refl _ _)
  | exchange l e n k =>
    cases hstep
    exact h σ hinv (O.rely_refl _ _) _ decide_eq_true_iff

/-- What holds in every reachable configuration: the invariant, and safety of every call in
progress. -/
structure Sound (O : Outline Val Tid Call Reply Env) (S : System Val Tid Call Reply Env)
    (c : Config Val Tid Call Reply Env) : Prop where
  inv : O.Inv c.shared
  frames : ∀ t i p, c.frames t = some (i, p) → i.tid = t ∧ O.Safe i (O.Returns S i) p c.shared

variable [DecidableEq Tid] {c c' : Config Val Tid Call Reply Env} {ev : Event Val Tid Call Reply}

omit [∀ l, DecidableEq (Val l)] in
/-- The calls of the other threads stay safe over a good step. -/
theorem Sound.others (h : O.Sound S c) {t : Tid} (hgood : O.Good t c.shared ev σ')
    {frame : Option (Invocation Val Tid Call × Prog Val Reply)}
    (hown : ∀ i p, frame = some (i, p) → i.tid = t ∧ O.Safe i (O.Returns S i) p σ') :
    O.Sound S ⟨σ', Function.update c.frames t frame⟩ where
  inv := hgood.inv
  frames := by
    intro t' i p hframe
    by_cases ht : t' = t
    · subst ht
      simp only [Function.update_self] at hframe
      exact hown i p hframe
    · simp only [Function.update_of_ne ht] at hframe
      obtain ⟨htid, hsafe⟩ := h.frames t' i p hframe
      exact ⟨htid, hsafe.mono hgood.inv (htid ▸ hgood.rely t' ht)⟩

/-- One step of a sound configuration is good and leads to a sound one. -/
theorem Sound.step (hproves : O.Proves S) (h : O.Sound S c) (hstep : Step S c ev c') :
    O.Guar c.shared ev c'.shared ∧ O.Sound S c' := by
  cases hstep with
  | start hidle hstart =>
    obtain ⟨hgood, hsafe⟩ := hproves c.shared _ _ _ h.inv hstart
    refine ⟨hgood.guar, h.others hgood ?_⟩
    intro i p hframe
    cases hframe
    exact ⟨rfl, hsafe⟩
  | act hframe hstep =>
    obtain ⟨rfl, hsafe⟩ := h.frames _ _ _ hframe
    obtain ⟨hgood, hrest⟩ := hsafe.step h.inv hstep
    refine ⟨hgood.guar, h.others hgood ?_⟩
    intro i' p'' hframe'
    cases hframe'
    exact ⟨rfl, hrest⟩
  | ret hframe =>
    obtain ⟨rfl, hsafe⟩ := h.frames _ _ _ hframe
    have hgood := hsafe c.shared h.inv (O.rely_refl _ _)
    refine ⟨hgood.guar, h.others hgood ?_⟩
    intro i' p'' hframe'
    cases hframe'

theorem sound (hproves : O.Proves S) (hinit : O.Inv σ₀) (hreach : Reach S σ₀ c) : O.Sound S c := by
  induction hreach with
  | refl => exact ⟨hinit, fun _ _ _ hframe => nomatch hframe⟩
  | tail _ hstep ih =>
    obtain ⟨ev, hstep⟩ := hstep
    exact (ih.step hproves hstep).2

/-- Every step that can happen is one the outline guarantees. -/
theorem sound_step (hproves : O.Proves S) (hinit : O.Inv σ₀) (hreach : Reach S σ₀ c)
    (hstep : Step S c ev c') : O.Guar c.shared ev c'.shared :=
  ((sound hproves hinit hreach).step hproves hstep).1

/-- What the guaranteed steps keep, runs keep. -/
theorem sound_steps (hproves : O.Proves S) (hinit : O.Inv σ₀) (hreach : Reach S σ₀ c)
    {P : Shared Val Tid Call Reply Env → Prop} (hP : ∀ σ ev σ', O.Guar σ ev σ' → P σ → P σ')
    (hsteps : Steps S c c') (h : P c.shared) :
    P c'.shared := by
  induction hsteps with
  | refl => exact h
  | tail hsteps hstep ih =>
    obtain ⟨ev, hstep⟩ := hstep
    exact hP _ ev _ (sound_step hproves hinit (hreach.trans hsteps) hstep) ih

end Soundness

/-! ## Rules -/

variable (O) in
/-- From any state with `P`, the program is safe and ends with `Q`. -/
def Triple (i : Invocation Val Tid Call) (P : Shared Val Tid Call Reply Env → Prop)
    (p : Prog Val A) (Q : A → Shared Val Tid Call Reply Env → Prop) : Prop :=
  ∀ σ, O.Inv σ → P σ → O.Safe i Q p σ

theorem Safe.bind {f : A → Prog Val B} (hinv : O.Inv σ) (h : O.Safe i Q p σ)
    (hf : ∀ a, O.Triple i (Q a) (f a) Q') : O.Safe i Q' (p >>= f) σ := by
  induction p generalizing σ with
  | ret a => exact hf a σ hinv (h σ hinv (O.rely_refl _ _))
  | load l k ih | swap l n k ih =>
    intro σ' hinv' hrely
    obtain ⟨hgood, hsafe⟩ := h σ' hinv' hrely
    exact ⟨hgood, ih _ hgood.inv hsafe⟩
  | store l v k ih =>
    intro σ' hinv' hrely
    obtain ⟨hgood, hsafe⟩ := h σ' hinv' hrely
    exact ⟨hgood, ih hgood.inv hsafe⟩
  | exchange l e n k ih =>
    intro σ' hinv' hrely b hb
    obtain ⟨hgood, hsafe⟩ := h σ' hinv' hrely b hb
    exact ⟨hgood, ih b hgood.inv hsafe⟩

theorem Safe.post {Q' : A → Shared Val Tid Call Reply Env → Prop} (h : O.Safe i Q p σ)
    (himp : ∀ a σ, O.Inv σ → Q a σ → Q' a σ) : O.Safe i Q' p σ := by
  induction p generalizing σ with
  | ret a => exact fun σ' hinv' hrely => himp a σ' hinv' (h σ' hinv' hrely)
  | load l k ih | swap l n k ih => exact fun σ' hinv' hrely => (h σ' hinv' hrely).imp_right (ih _)
  | store l v k ih => exact fun σ' hinv' hrely => (h σ' hinv' hrely).imp_right ih
  | exchange l e n k ih =>
    exact fun σ' hinv' hrely b hb => (h σ' hinv' hrely b hb).imp_right (ih b)

/-! The rules that follow a program from state to state: each operation takes place in some state
that the others may have led to, and the rest is safe from there. -/

section Following

theorem Safe.load (hsilent : O.Silent) {f : Val l → Prog Val A}
    (h : ∀ σ', O.Inv σ' → O.Rely i.tid σ σ' →
      O.Safe i Q (f (σ'.mem l)) (σ'.acted i (.load l (σ'.mem l)))) :
    O.Safe i Q (Atomic.load l >>= f) σ :=
  fun σ' hinv hrely => ⟨(hsilent i σ' (.load l (σ'.mem l)) trivial hinv).1, h σ' hinv hrely⟩

/-- A load of which only the value matters. -/
theorem Safe.read (hsilent : O.Silent) {f : Val l → Prog Val A}
    (h : ∀ σ', O.Inv σ' → O.Rely i.tid σ σ' → O.Safe i Q (f (σ'.mem l)) σ') :
    O.Safe i Q (Atomic.load l >>= f) σ := by
  refine .load hsilent fun σ' hinv hrely => ?_
  obtain ⟨hgood, hown⟩ := hsilent i σ' (.load l (σ'.mem l)) trivial hinv
  exact (h σ' hinv hrely).mono hgood.inv hown

theorem Safe.store {v : Val l} {f : Unit → Prog Val A}
    (h : ∀ σ', O.Inv σ' → O.Rely i.tid σ σ' →
      O.Does i σ' (.store l v) ∧ O.Safe i Q (f ()) (σ'.acted i (.store l v))) :
    O.Safe i Q (Atomic.store l v >>= f) σ := h

theorem Safe.exchange (hsilent : O.Silent) {e n : Val l} {f : Bool → Prog Val A}
    (hyes : ∀ σ', O.Inv σ' → O.Rely i.tid σ σ' → σ'.mem l = e →
      O.Does i σ' (.exchange l e n true) ∧ O.Safe i Q (f true) (σ'.acted i (.exchange l e n true)))
    (hno : ∀ σ', O.Inv σ' → O.Rely i.tid σ σ' → σ'.mem l ≠ e → O.Safe i Q (f false) σ') :
    O.Safe i Q (Atomic.compareExchange l e n >>= f) σ := by
  intro σ' hinv hrely b hb
  rcases b with _ | _
  · obtain ⟨hgood, hown⟩ := hsilent i σ' (.exchange l e n false) rfl hinv
    have hne : σ'.mem l ≠ e := fun heq => Bool.noConfusion (hb.mpr heq)
    exact ⟨hgood, (hno σ' hinv hrely hne).mono hgood.inv hown⟩
  · exact hyes σ' hinv hrely (hb.mp rfl)

/-- An operation that cannot fail is the same operation in a program that can. -/
theorem Safe.lifted {Q : Except ε B → Shared Val Tid Call Reply Env → Prop}
    (h : O.Safe i Q (p >>= fun a => (f a).run) σ) :
    O.Safe i Q ((liftM p : ExceptT ε (Prog Val) A) >>= f).run σ := by
  rw [Prog.run_bind_lift]
  exact h

theorem Safe.run_bind {Q : Except ε A → Shared Val Tid Call Reply Env → Prop}
    {Q' : Except ε B → Shared Val Tid Call Reply Env → Prop} (hinv : O.Inv σ)
    (h : O.Safe i Q x.run σ) (hok : ∀ a, O.Triple i (Q (.ok a)) (f a).run Q')
    (herror : ∀ e, O.Triple i (Q (.error e)) (pure (.error e)) Q') : O.Safe i Q' (x >>= f).run σ :=
  h.bind hinv fun
    | .ok a => hok a
    | .error e => herror e

/-- A loop that stops at the first element it rejects. -/
theorem Safe.allM {α : Type} {xs : List α} {f : α → Prog Val Bool}
    {F : α → Shared Val Tid Call Reply Env → Prop} (hF : ∀ x, O.Stable i.tid (F x)) (hinv : O.Inv σ)
    (h : ∀ x ∈ xs, ∀ σ', O.Inv σ' → O.Rely i.tid σ σ' →
      O.Safe i (fun b σ'' => O.Rely i.tid σ' σ'' ∧ (b = true → F x σ'')) (f x) σ') :
    O.Safe i (fun b σ' => O.Rely i.tid σ σ' ∧ (b = true → ∀ x ∈ xs, F x σ')) (xs.allM f) σ := by
  induction xs generalizing σ with
  | nil => exact fun σ' _ hrely => ⟨hrely, fun _ => nofun⟩
  | cons x xs ih =>
    refine Safe.bind hinv (h x List.mem_cons_self σ hinv (O.rely_refl _ _))
      fun b σ₁ hinv₁ hfirst => ?_
    obtain ⟨hrely₁, hx⟩ := hfirst
    rcases b with _ | _
    · exact fun σ' _ hrely => ⟨O.rely_trans _ hinv₁ hrely₁ hrely, nofun⟩
    · have hrest := ih hinv₁ fun y hy σ' hinv' hrely =>
        h y (List.mem_cons_of_mem x hy) σ' hinv' (O.rely_trans _ hinv₁ hrely₁ hrely)
      refine hrest.post fun b σ' hinv' hall => ⟨O.rely_trans _ hinv₁ hrely₁ hall.1, fun hb => ?_⟩
      exact List.forall_mem_cons.mpr ⟨hF x σ₁ σ' hinv₁ hinv' hall.1 (hx rfl), hall.2 hb⟩

end Following

namespace Triple

theorem bind {f : A → Prog Val B} (h : O.Triple i P p Q) (hf : ∀ a, O.Triple i (Q a) (f a) Q') :
    O.Triple i P (p >>= f) Q' :=
  fun σ hinv hP => (h σ hinv hP).bind hinv hf

/-- The precondition may be anything stronger. -/
theorem pre {P' : Shared Val Tid Call Reply Env → Prop} (h : O.Triple i P p Q)
    (himp : ∀ σ, O.Inv σ → P' σ → P σ) : O.Triple i P' p Q :=
  fun σ hinv hP => h σ hinv (himp σ hinv hP)

/-- The postcondition may be anything weaker. -/
theorem post {Q' : A → Shared Val Tid Call Reply Env → Prop} (h : O.Triple i P p Q)
    (himp : ∀ a σ, O.Inv σ → Q a σ → Q' a σ) : O.Triple i P p Q' :=
  fun σ hinv hP => (h σ hinv hP).post himp

/-- A fact about the program's own values moves out of the precondition. -/
theorem pre_const {φ : Prop} (h : φ → O.Triple i P p Q) : O.Triple i (fun σ => φ ∧ P σ) p Q :=
  fun σ hinv hP => h hP.1 σ hinv hP.2

theorem ret {a : A} (hstable : O.Stable i.tid P) (h : ∀ σ, O.Inv σ → P σ → Q a σ) :
    O.Triple i P (pure a) Q :=
  fun σ hinv hP σ' hinv' hrely => h σ' hinv' (hstable σ σ' hinv hinv' hrely hP)

theorem load {Q : Val l → Shared Val Tid Call Reply Env → Prop} (hstable : O.Stable i.tid P)
    (hpost : ∀ v, O.Stable i.tid (Q v))
    (h : ∀ σ, O.Inv σ → P σ → O.Does i σ (.load l (σ.mem l)) ∧
      Q (σ.mem l) (σ.acted i (.load l (σ.mem l)))) :
    O.Triple i P (Atomic.load l) Q := by
  intro σ hinv hP σ' hinv' hrely
  obtain ⟨hgood, hQ⟩ := h σ' hinv' (hstable σ σ' hinv hinv' hrely hP)
  exact ⟨hgood, fun σ'' hinv'' hrely' => hpost _ _ σ'' hgood.inv hinv'' hrely' hQ⟩

theorem compareExchange {e n : Val l} {Q : Bool → Shared Val Tid Call Reply Env → Prop}
    (hstable : O.Stable i.tid P) (hpost : ∀ b, O.Stable i.tid (Q b))
    (h : ∀ σ b, O.Inv σ → P σ → (b = true ↔ σ.mem l = e) →
      O.Does i σ (.exchange l e n b) ∧ Q b (σ.acted i (.exchange l e n b))) :
    O.Triple i P (Atomic.compareExchange l e n) Q := by
  intro σ hinv hP σ' hinv' hrely b hb
  obtain ⟨hgood, hQ⟩ := h σ' b hinv' (hstable σ σ' hinv hinv' hrely hP) hb
  exact ⟨hgood, fun σ'' hinv'' hrely' => hpost b _ σ'' hgood.inv hinv'' hrely' hQ⟩

/-! Reading changes nothing, so what was true at the load stays true. -/

theorem read (hsilent : O.Silent) {Q : Val l → Shared Val Tid Call Reply Env → Prop}
    (hstable : O.Stable i.tid P) (hpost : ∀ v, O.Stable i.tid (Q v))
    (h : ∀ σ, O.Inv σ → P σ → Q (σ.mem l) σ) : O.Triple i P (Atomic.load l) Q := by
  refine load hstable hpost fun σ hinv hP => ?_
  obtain ⟨hgood, hrely⟩ := hsilent i σ (.load l (σ.mem l)) trivial hinv
  exact ⟨hgood, hpost _ _ _ hinv hgood.inv hrely (h σ hinv hP)⟩

theorem tryExchange (hsilent : O.Silent) {e n : Val l}
    {Q : Bool → Shared Val Tid Call Reply Env → Prop} (hstable : O.Stable i.tid P)
    (hpost : ∀ b, O.Stable i.tid (Q b))
    (hyes : ∀ σ, O.Inv σ → P σ → σ.mem l = e →
      O.Does i σ (.exchange l e n true) ∧ Q true (σ.acted i (.exchange l e n true)))
    (hno : ∀ σ, O.Inv σ → P σ → σ.mem l ≠ e → Q false σ) :
    O.Triple i P (Atomic.compareExchange l e n) Q := by
  refine compareExchange hstable hpost fun σ b hinv hP hb => ?_
  rcases b with _ | _
  · obtain ⟨hgood, hrely⟩ := hsilent i σ (.exchange l e n false) rfl hinv
    have hne : σ.mem l ≠ e := fun heq => Bool.noConfusion (hb.mpr heq)
    exact ⟨hgood, hpost _ _ _ hinv hgood.inv hrely (hno σ hinv hP hne)⟩
  · exact hyes σ hinv hP (hb.mp rfl)

/-! The same for programs that stop at the first error. -/

theorem run_bind {Q : Except ε A → Shared Val Tid Call Reply Env → Prop}
    {Q' : Except ε B → Shared Val Tid Call Reply Env → Prop} (h : O.Triple i P x.run Q)
    (hok : ∀ a, O.Triple i (Q (.ok a)) (f a).run Q')
    (herror : ∀ e, O.Triple i (Q (.error e)) (pure (.error e)) Q') :
    O.Triple i P (x >>= f).run Q' :=
  bind h fun
    | .ok a => hok a
    | .error e => herror e

/-- An operation that cannot fail is the same operation in a program that can. -/
theorem lifted {Q : Except ε B → Shared Val Tid Call Reply Env → Prop}
    (h : O.Triple i P (p >>= fun a => (f a).run) Q) :
    O.Triple i P ((liftM p : ExceptT ε (Prog Val) A) >>= f).run Q := by
  rw [Prog.run_bind_lift]
  exact h

/-- An operation that cannot fail, and the rest of the program. -/
theorem run_bind_lift {Q' : Except ε B → Shared Val Tid Call Reply Env → Prop}
    (h : O.Triple i P p Q) (hf : ∀ a, O.Triple i (Q a) (f a).run Q') :
    O.Triple i P ((liftM p : ExceptT ε (Prog Val) A) >>= f).run Q' :=
  lifted (bind h hf)

/-- Operations that are good wherever a fact holds, and that keep it, make any program of them
safe. -/
theorem of_forall_keeping {Q : A → Prop} (h : p.Forall ok Q) (hstable : O.Stable i.tid P)
    (hgood : ∀ σ a, O.Inv σ → P σ → a.Enabled σ.mem → ok a → O.Does i σ a ∧ P (σ.acted i a)) :
    O.Triple i P p fun a σ => Q a ∧ P σ := by
  intro σ hinv hP
  induction p generalizing σ with
  | ret a => exact fun σ' hinv' hrely => ⟨h, hstable σ σ' hinv hinv' hrely hP⟩
  | load l k ih =>
    intro σ' hinv' hrely
    obtain ⟨hok, hrest⟩ := h (σ'.mem l)
    have hP₁ := hstable σ σ' hinv hinv' hrely hP
    obtain ⟨hdoes, hP'⟩ := hgood σ' (.load l (σ'.mem l)) hinv' hP₁ rfl hok
    exact ⟨hdoes, ih _ hrest _ hdoes.inv hP'⟩
  | store l v k ih =>
    intro σ' hinv' hrely
    have hP₁ := hstable σ σ' hinv hinv' hrely hP
    obtain ⟨hdoes, hP'⟩ := hgood σ' (.store l v) hinv' hP₁ trivial h.1
    exact ⟨hdoes, ih h.2 _ hdoes.inv hP'⟩
  | exchange l e n k ih =>
    intro σ' hinv' hrely b hb
    obtain ⟨hok, hrest⟩ := h b
    have hP₁ := hstable σ σ' hinv hinv' hrely hP
    obtain ⟨hdoes, hP'⟩ := hgood σ' (.exchange l e n b) hinv' hP₁ hb hok
    exact ⟨hdoes, ih b hrest _ hdoes.inv hP'⟩
  | swap l n k ih =>
    intro σ' hinv' hrely
    obtain ⟨hok, hrest⟩ := h (σ'.mem l)
    have hP₁ := hstable σ σ' hinv hinv' hrely hP
    obtain ⟨hdoes, hP'⟩ := hgood σ' (.swap l n (σ'.mem l)) hinv' hP₁ rfl hok
    exact ⟨hdoes, ih _ hrest _ hdoes.inv hP'⟩

/-- Operations that are good in any state make any program of them safe. -/
theorem of_forall {Q : A → Prop} (h : p.Forall ok Q)
    (hgood : ∀ σ a, O.Inv σ → a.Enabled σ.mem → ok a → O.Does i σ a) :
    O.Triple i (fun _ => True) p fun a _ => Q a := by
  refine (of_forall_keeping h (fun _ _ _ _ _ => id) fun σ a hinv _ hen hok => ?_).post
    fun _ _ _ hQ => hQ.1
  exact ⟨hgood σ a hinv hen hok, trivial⟩

end Triple

/-! ## Code that is safe without help

Where each operation, for itself, keeps the invariant in any state, nothing needs to be known about
the others. -/

/-- The outline that relies on nothing. -/
def free (Inv : Shared Val Tid Call Reply Env → Prop)
    (Guar : Shared Val Tid Call Reply Env → Event Val Tid Call Reply →
      Shared Val Tid Call Reply Env → Prop) : Outline Val Tid Call Reply Env where
  Inv := Inv
  Guar := Guar
  Rely _ _ _ := True
  rely_refl _ _ := trivial
  rely_trans _ _ _ _ _ _ _ := trivial

theorem free_proves {Inv : Shared Val Tid Call Reply Env → Prop}
    {Guar : Shared Val Tid Call Reply Env → Event Val Tid Call Reply →
      Shared Val Tid Call Reply Env → Prop}
    (hcode : ∀ call, (S.code call).Only ok)
    (hstart : ∀ σ i env, Inv σ → Inv (σ.started i env) ∧ Guar σ (.start i) (σ.started i env))
    (hact : ∀ σ i a, Inv σ → a.Enabled σ.mem → ok a →
      Inv (σ.acted i a) ∧ Guar σ (.act i a) (σ.acted i a))
    (hret : ∀ σ i r env, Inv σ → Inv (σ.returned i r env) ∧
      Guar σ (.ret i r) (σ.returned i r env)) :
    (free Inv Guar).Proves S := by
  intro σ₀ t call env hinv₀ _
  obtain ⟨hinv₁, hguar₁⟩ := hstart σ₀ (σ₀.invoke t call) env hinv₀
  have hsafe : (free Inv Guar).Triple (σ₀.invoke t call) (fun _ => True) (S.code call)
      fun _ _ => True := by
    refine Triple.of_forall (hcode call) fun σ a hinv hen hok => ?_
    obtain ⟨hinv', hguar⟩ := hact σ (σ₀.invoke t call) a hinv hen hok
    exact ⟨hinv', hguar, fun _ _ => trivial⟩
  refine ⟨⟨hinv₁, hguar₁, fun _ _ => trivial⟩, (hsafe.post fun r σ hinv _ => ?_) _ hinv₁ trivial⟩
  obtain ⟨hinv', hguar⟩ := hret σ (σ₀.invoke t call) r (S.finish σ.env t call r) hinv
  exact ⟨hinv', hguar, fun _ _ => trivial⟩

/-! ## Facts that interference leaves alone -/

namespace Stable

variable {t : Tid} {P' : Shared Val Tid Call Reply Env → Prop}

omit [DecidableEq Loc]

theorem and (h : O.Stable t P) (h' : O.Stable t P') : O.Stable t fun σ => P σ ∧ P' σ :=
  fun σ σ' hinv hinv' hrely hP => ⟨h σ σ' hinv hinv' hrely hP.1, h' σ σ' hinv hinv' hrely hP.2⟩

/-- A fact about the program's own values. -/
theorem const (p : Prop) : O.Stable t fun _ => p := fun _ _ _ _ _ hp => hp

theorem imp {p : Prop} (h : p → O.Stable t P) : O.Stable t fun σ => p → P σ :=
  fun σ σ' hinv hinv' hrely hP hp => h hp σ σ' hinv hinv' hrely (hP hp)

theorem all {P : ι → Shared Val Tid Call Reply Env → Prop} (h : ∀ x, O.Stable t (P x)) :
    O.Stable t fun σ => ∀ x, P x σ :=
  fun σ σ' hinv hinv' hrely hP x => h x σ σ' hinv hinv' hrely (hP x)

end Stable

end Outline

end Interleave
