/-
# Tvisor.Lib.Views -- the runs of a call, seen through a part of the memory

Sometimes only a few words matter, and only while one call runs after the other: what the rest of
the memory holds, and who else writes there, is of no interest. A `View` is such a part: a state,
how an operation changes it, and what an operation must have read to agree with it. `Takes` is the
judgement about all runs of a program that agree with the view from a given state on; everything the
view does not cover may be read as anything.
-/
import Tvisor.Lib.Traces

namespace Interleave

variable {Loc : Type} {Val : Loc → Type} {σ ε A B : Type}

/-- A part of the memory, as a state of its own. -/
structure View (Val : Loc → Type) (σ : Type) where
  agrees : Action Val → σ → Prop
  apply : Action Val → σ → σ

variable {f : A → ExceptT ε (Prog Val) B} {l : Loc}

namespace View

variable (view : View Val σ)

/-- The operations agree with the view, one after the other, and lead from state to state. -/
inductive Follows : σ → List (Action Val) → σ → Prop
  | nil (s : σ) : Follows s [] s
  | cons {s s' : σ} {a : Action Val} {ops : List (Action Val)} :
      view.agrees a s → Follows (view.apply a s) ops s' → Follows s (a :: ops) s'

/-- The operation is outside the view. -/
def Outside (a : Action Val) : Prop := ∀ s, view.apply a s = s

/-- Every run that agrees with the view from this state on ends with `Q`. -/
def Takes (s : σ) (p : Prog Val A) (Q : A → σ → Prop) : Prop :=
  ∀ ops a s', p.Ran ops a → view.Follows s ops s' → Q a s'

variable {view} {s s' : σ} {p : Prog Val A} {Q P : A → σ → Prop} {R : B → σ → Prop}

theorem Follows.of_append {before after : List (Action Val)}
    (h : view.Follows s (before ++ after) s') :
    ∃ mid, view.Follows s before mid ∧ view.Follows mid after s' := by
  induction before generalizing s with
  | nil => exact ⟨s, .nil s, h⟩
  | cons a before ih =>
    cases h with
    | cons hagrees hrest =>
      obtain ⟨mid, hbefore, hafter⟩ := ih hrest
      exact ⟨mid, .cons hagrees hbefore, hafter⟩

theorem Follows.of_outside {ops : List (Action Val)} (h : view.Follows s ops s')
    (hops : ∀ a ∈ ops, view.Outside a) : s' = s := by
  induction h with
  | nil => rfl
  | cons _ _ ih =>
    rw [ih fun a ha => hops a (List.mem_cons_of_mem _ ha), hops _ List.mem_cons_self]

/-! ## Rules -/

theorem Takes.ret {a : A} (h : Q a s) : view.Takes s (pure a : Prog Val A) Q := by
  intro ops b s' hrun hfollows
  obtain ⟨rfl, rfl⟩ := Prog.ran_ret.mp hrun
  cases hfollows
  exact h

theorem Takes.bind {f : A → Prog Val B} (h : view.Takes s p P)
    (hf : ∀ a s', P a s' → view.Takes s' (f a) R) : view.Takes s (p >>= f) R := by
  intro ops b s' hrun hfollows
  obtain ⟨before, after, a, hfirst, hsecond, rfl⟩ := hrun.of_bind
  obtain ⟨mid, hbefore, hafter⟩ := hfollows.of_append
  exact hf a mid (h before a mid hfirst hbefore) after b s' hsecond hafter

/-- The rule for a sequence that the first part can end early. -/
theorem Takes.run_bind {P : Except ε A → σ → Prop} {R : Except ε B → σ → Prop}
    {x : ExceptT ε (Prog Val) A} (h : view.Takes s x.run P)
    (hok : ∀ a s', P (.ok a) s' → view.Takes s' (f a).run R)
    (herror : ∀ e s', P (.error e) s' → R (.error e) s') : view.Takes s (x >>= f).run R :=
  h.bind fun
    | .ok a, s', hP => hok a s' hP
    | .error e, s', hP => .ret (herror e s' hP)

theorem Takes.run_bind_lift {R : Except ε B → σ → Prop} (h : view.Takes s p P)
    (hf : ∀ a s', P a s' → view.Takes s' (f a).run R) :
    view.Takes s ((liftM p : ExceptT ε (Prog Val) A) >>= f).run R := by
  rw [Prog.run_bind_lift]
  exact h.bind hf

/-- A program outside the view leaves the state. -/
theorem Takes.outside (h : p.Only view.Outside) :
    view.Takes s p fun _ s' => s' = s :=
  fun _ _ _ hrun hfollows => hfollows.of_outside (hrun.forall h).1

theorem Takes.load {Q : Val l → σ → Prop}
    (h : ∀ v, view.agrees (.load l v) s → Q v (view.apply (.load l v) s)) :
    view.Takes s (Atomic.load l) Q := by
  intro ops v s' hrun hfollows
  obtain ⟨w, rest, rfl, hrest⟩ := Prog.ran_load.mp hrun
  obtain ⟨rfl, rfl⟩ := Prog.ran_ret.mp hrest
  cases hfollows with
  | cons hagrees hnil =>
    cases hnil
    exact h v hagrees

theorem Takes.store {v : Val l} {Q : Unit → σ → Prop}
    (h : view.agrees (.store l v) s → Q () (view.apply (.store l v) s)) :
    view.Takes s (Atomic.store l v) Q := by
  intro ops u s' hrun hfollows
  cases hrun with
  | store hrest =>
    obtain ⟨rfl, rfl⟩ := Prog.ran_ret.mp hrest
    cases hfollows with
    | cons hagrees hnil =>
      cases hnil
      exact h hagrees

theorem Takes.compareExchange {expected new : Val l} {Q : Bool → σ → Prop}
    (h : ∀ success, view.agrees (.exchange l expected new success) s →
      Q success (view.apply (.exchange l expected new success) s)) :
    view.Takes s (Atomic.compareExchange l expected new) Q := by
  intro ops success s' hrun hfollows
  cases hrun with
  | exchange hrest =>
    obtain ⟨rfl, rfl⟩ := Prog.ran_ret.mp hrest
    cases hfollows with
    | cons hagrees hnil =>
      cases hnil
      exact h success hagrees

end View

end Interleave
