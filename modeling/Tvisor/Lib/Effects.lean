/-
# Tvisor.Lib.Effects -- what the runs of a call leave in memory

`Prog.exec` is a program that nobody interferes with. `Action.after` is the memory after the
operations of a run in which others may have interfered: whatever the run has read, its own writes
are all that it adds. A location that no operation of the run writes is as it was.
-/
import Tvisor.Lib.Traces

namespace Interleave

variable {Loc : Type} {Val : Loc → Type} {A : Type}

/-- The operation leaves the location alone. -/
def Action.Spares (l : Loc) (a : Action Val) : Prop := a.IsRead ∨ l ≠ a.loc

section Memory

variable [DecidableEq Loc]

theorem Action.Spares.apply_eq {l : Loc} {a : Action Val} (h : a.Spares l) (m : ∀ l, Val l) :
    a.apply m l = m l := by
  rcases h with hread | hne
  · rw [hread.apply_eq]
  · exact a.apply_of_ne hne m

/-- The memory after some operations, oldest first. -/
def Action.after (ops : List (Action Val)) (m : ∀ l, Val l) : ∀ l, Val l :=
  ops.foldl (fun m a => a.apply m) m

theorem Action.after_of_spares {l : Loc} {ops : List (Action Val)} (h : ∀ a ∈ ops, a.Spares l)
    (m : ∀ l, Val l) : Action.after ops m l = m l := by
  induction ops generalizing m with
  | nil => rfl
  | cons a ops ih =>
    have hrest := ih (fun b hb => h b (List.mem_cons_of_mem a hb)) (a.apply m)
    exact hrest.trans ((h a List.mem_cons_self).apply_eq m)

end Memory

namespace Prog

/-- The program alone with its memory: the result, and the memory it leaves. -/
def exec [DecidableEq Loc] [∀ l, DecidableEq (Val l)] : Prog Val A → (∀ l, Val l) → A × (∀ l, Val l)
  | .ret a, m => (a, m)
  | .load l k, m => (k (m l)).exec m
  | .store l v k, m => k.exec (Function.update m l v)
  | .exchange l e n k, m =>
      if m l = e then (k true).exec (Function.update m l n) else (k false).exec m
  | .swap l n k, m => (k (m l)).exec (Function.update m l n)

/-- Whatever memory each operation finds, there is a run. -/
theorem exists_ran (p : Prog Val A) (found : Nat → ∀ l, Val l) :
    ∃ (ops : List (Action Val)) (a : A), p.Ran ops a ∧
      ∀ (n : Nat) op, ops[n]? = some op → op.Enabled (found n) := by
  classical
  induction p generalizing found with
  | ret a => exact ⟨[], a, .ret a, by simp⟩
  | load l k ih =>
    obtain ⟨ops, a, hrun, hops⟩ := ih (found 0 l) fun n => found (n + 1)
    refine ⟨.load l (found 0 l) :: ops, a, .load hrun, ?_⟩
    rintro (_ | n) op hop
    · cases hop
      rfl
    · exact hops n op hop
  | store l v k ih =>
    obtain ⟨ops, a, hrun, hops⟩ := ih fun n => found (n + 1)
    refine ⟨.store l v :: ops, a, .store hrun, ?_⟩
    rintro (_ | n) op hop
    · cases hop
      trivial
    · exact hops n op hop
  | exchange l e n k ih =>
    obtain ⟨ops, a, hrun, hops⟩ := ih (decide (found 0 l = e)) fun n => found (n + 1)
    refine ⟨.exchange l e n (decide (found 0 l = e)) :: ops, a, .exchange hrun, ?_⟩
    rintro (_ | n) op hop
    · cases hop
      exact decide_eq_true_iff
    · exact hops n op hop
  | swap l n k ih =>
    obtain ⟨ops, a, hrun, hops⟩ := ih (found 0 l) fun n => found (n + 1)
    refine ⟨.swap l n (found 0 l) :: ops, a, .swap hrun, ?_⟩
    rintro (_ | n) op hop
    · cases hop
      rfl
    · exact hops n op hop

end Prog

end Interleave
