/-
# Tvisor.Lib.Reads -- code that reads memory, and which locations it has read

A parser that is handed a pointer has two obligations: its result, and not to look beyond the end of
what it was given. `Reads` is a computation that reads a memory it does not change, may fail, and
keeps the locations it has read, also on the way to a failure. `Yields` states both obligations at
once: with this memory the result is `r`, and every location read is one that may be read.

The rules push `Yields` through a computation and leave a computation of the same shape in `Except`,
where memory is gone. Exactness is then a fact about that one.
-/
import Mathlib.Data.List.Basic

namespace Reading

variable {Loc : Type} {Val : Loc → Type} {ε ε' A B S : Type}

/-- A computation on a memory that it reads: how it ends, and what it has read, oldest first. -/
def Reads (Val : Loc → Type) (ε A : Type) : Type := (∀ l, Val l) → Except ε A × List Loc

namespace Reads

protected def bind (x : Reads Val ε A) (f : A → Reads Val ε B) : Reads Val ε B := fun m =>
  match x m with
  | (.ok a, log) => ((f a m).1, log ++ (f a m).2)
  | (.error e, log) => (.error e, log)

instance : Monad (Reads Val ε) where
  pure a := fun _ => (.ok a, [])
  bind := Reads.bind

/-- The computation stops with an error. -/
def fail (e : ε) : Reads Val ε A := fun _ => (.error e, [])

def read (l : Loc) : Reads Val ε (Val l) := fun m => (.ok (m l), [l])

/-- `result?` for a result that needs no memory. -/
def lift (x : Except ε A) : Reads Val ε A := fun _ => (x, [])

/-- `result.map_err(f)` -/
def mapError (f : ε → ε') (x : Reads Val ε A) : Reads Val ε' A := fun m =>
  ((x m).1.mapError f, (x m).2)

end Reads

open Reads

/-- With this memory the computation ends with `r`, and reads only locations that it may read. -/
def Yields (m : ∀ l, Val l) (may : Loc → Prop) (x : Reads Val ε A) (r : Except ε A) : Prop :=
  (x m).1 = r ∧ ∀ l ∈ (x m).2, may l

variable {m : ∀ l, Val l} {may : Loc → Prop}

theorem Yields.pure (a : A) : Yields m may (pure a : Reads Val ε A) (.ok a) := ⟨rfl, nofun⟩

theorem Yields.fail (e : ε) : Yields m may (fail e : Reads Val ε A) (.error e) := ⟨rfl, nofun⟩

theorem Yields.lift (r : Except ε A) : Yields m may (lift r) r := ⟨rfl, nofun⟩

theorem Yields.read {l : Loc} (h : may l) : Yields m may (read l : Reads Val ε _) (.ok (m l)) := by
  refine ⟨rfl, fun l' hl' => ?_⟩
  rwa [List.mem_singleton.mp hl']

variable {x : Reads Val ε A} {r : Except ε A}

theorem Yields.mono {may' : Loc → Prop} (h : Yields m may x r) (himp : ∀ l, may l → may' l) :
    Yields m may' x r :=
  ⟨h.1, fun l hl => himp l (h.2 l hl)⟩

theorem Yields.mapError (h : Yields m may x r) (f : ε → ε') :
    Yields m may (x.mapError f) (r.mapError f) :=
  ⟨congrArg (Except.mapError f) h.1, h.2⟩

/-- The second part is asked about only at the value that the first part ends with. -/
theorem Yields.bind {f : A → Reads Val ε B} {g : A → Except ε B} (h : Yields m may x r)
    (hf : ∀ a, r = .ok a → Yields m may (f a) (g a)) : Yields m may (x >>= f) (r >>= g) := by
  obtain ⟨rfl, hmay⟩ := h
  have hbind : (x >>= f) m = Reads.bind x f m := rfl
  rw [Yields, hbind, Reads.bind]
  rcases hx : x m with ⟨e | a, log⟩
  · rw [hx] at hmay
    exact ⟨rfl, hmay⟩
  · rw [hx] at hmay hf
    obtain ⟨hresult, hlog⟩ := hf a rfl
    refine ⟨hresult, fun l hl => ?_⟩
    rcases List.mem_append.mp hl with hl | hl
    · exact hmay l hl
    · exact hlog l hl

theorem Yields.bind_ok {f : A → Reads Val ε B} {a : A} {r : Except ε B}
    (h : Yields m may x (.ok a)) (hf : Yields m may (f a) r) : Yields m may (x >>= f) r := by
  refine h.bind (g := fun _ => r) fun b hb => ?_
  cases hb
  exact hf

theorem Yields.foldlM {f : S → A → Reads Val ε S} {g : S → A → Except ε S} {xs : List A}
    (h : ∀ s, ∀ a ∈ xs, Yields m may (f s a) (g s a)) (s : S) :
    Yields m may (xs.foldlM f s) (xs.foldlM g s) := by
  induction xs generalizing s with
  | nil => exact .pure s
  | cons a xs ih =>
    rw [List.foldlM_cons, List.foldlM_cons]
    exact (h s a List.mem_cons_self).bind fun s' _ =>
      ih (fun s b hb => h s b (List.mem_cons_of_mem a hb)) s'

end Reading
