/-
# Tvisor.Lib.Fallible -- methods that mutate their receiver and may fail half-way

A method that takes a mutable receiver and returns a result is an `EStateM` computation: when it
fails, the receiver keeps whatever had been written up to that point. This file adds the few
combinators such code is written with, their evaluation lemmas, and the rule that carries an
invariant through any sequence of calls, failed ones included.
-/
import Mathlib.Logic.Basic

namespace Fallible

universe u

variable {ε σ τ α β : Type u}

/-! ## Reading a finished call -/

/-- The receiver after a call, whether it succeeded or not. -/
def state : EStateM.Result ε σ α → σ
  | .ok _ s => s
  | .error _ s => s

/-- The value a call returned to its caller. -/
def outcome : EStateM.Result ε σ α → Except ε α
  | .ok a _ => .ok a
  | .error e _ => .error e

def isOk : EStateM.Result ε σ α → Bool
  | .ok _ _ => true
  | .error _ _ => false

/-- A call that is seen to succeed is determined by the receiver it leaves. -/
theorem eq_ok_of_isOk {ε σ : Type} {r : EStateM.Result ε σ Unit} (h : isOk r = true) :
    r = .ok () (state r) := by
  cases r with
  | ok u s => rfl
  | error e s => cases h

@[simp] theorem state_ok (a : α) (s : σ) : state (.ok a s : EStateM.Result ε σ α) = s := rfl

/-! ## Combinators -/

/-- `value.ok_or(e)?` -/
def orThrow (e : ε) : Option α → EStateM ε σ α
  | some a => pure a
  | none => throw e

/-- `value?` for a result computed without touching the receiver. -/
def lift : Except ε α → EStateM ε σ α
  | .ok a => pure a
  | .error e => throw e

/-- Run a computation on one component of the receiver. -/
def zoom (view : σ → τ) (put : σ → τ → σ) (x : EStateM ε τ α) : EStateM ε σ α := fun s =>
  match x.run (view s) with
  | .ok a t => .ok a (put s t)
  | .error e t => .error e (put s t)

/-- `result.map_err(f)?` -/
def mapError {ε' : Type u} (f : ε → ε') (x : EStateM ε σ α) : EStateM ε' σ α := fun s =>
  match x.run s with
  | .ok a t => .ok a t
  | .error e t => .error (f e) t

/-- Why a method stopped: with an error for its caller, or with a panic. -/
inductive Stop (ε : Type u) where
  | error (e : ε)
  | panicked
  deriving DecidableEq, Repr

/-- `array[i]`, which panics when the index is out of bounds. -/
def readAt {n : Nat} (v : Vector α n) (i : Nat) : EStateM (Stop ε) σ α :=
  if h : i < n then pure (v.get ⟨i, h⟩) else throw .panicked

/-- `array[i] = a`, on a copy of the array. -/
def writeAt {n : Nat} (v : Vector α n) (i : Nat) (a : α) : EStateM (Stop ε) σ (Vector α n) :=
  if h : i < n then pure (v.set i a h) else throw .panicked

/-- `result.map_err(f)?` for a method that may also panic. -/
def mapStop {ε' : Type u} (f : ε → ε') : Stop ε → Stop ε'
  | .error e => .error (f e)
  | .panicked => .panicked

theorem readAt_of_lt {n : Nat} {v : Vector α n} {i : Nat} (h : i < n) :
    (readAt v i : EStateM (Stop ε) σ α) = pure (v.get ⟨i, h⟩) := dif_pos h

theorem writeAt_of_lt {n : Nat} {v : Vector α n} {i : Nat} (h : i < n) (a : α) :
    (writeAt v i a : EStateM (Stop ε) σ (Vector α n)) = pure (v.set i a h) := dif_pos h

@[simp] theorem run_throw' (e : ε) (s : σ) :
    EStateM.run (throw e : EStateM ε σ α) s = .error e s := rfl

@[simp] theorem run_orThrow_some (e : ε) (a : α) (s : σ) :
    (orThrow e (some a) : EStateM ε σ α).run s = .ok a s := rfl

@[simp] theorem run_orThrow_none (e : ε) (s : σ) :
    (orThrow e none : EStateM ε σ α).run s = .error e s := rfl

@[simp] theorem run_lift_ok (a : α) (s : σ) :
    (lift (.ok a) : EStateM ε σ α).run s = .ok a s := rfl

@[simp] theorem run_lift_error (e : ε) (s : σ) :
    (lift (.error e) : EStateM ε σ α).run s = .error e s := rfl

theorem run_lift_eq_ok {x : Except ε α} {a : α} {s s' : σ} :
    (lift x : EStateM ε σ α).run s = .ok a s' ↔ x = .ok a ∧ s = s' := by
  cases x with
  | ok b =>
    rw [run_lift_ok, EStateM.Result.ok.injEq, Except.ok.injEq]
  | error e =>
    rw [run_lift_error]
    constructor
    · intro h
      cases h
    · rintro ⟨h, -⟩
      cases h

theorem run_ite (c : Prop) [Decidable c] (x y : EStateM ε σ α) (s : σ) :
    (if c then x else y).run s = if c then x.run s else y.run s :=
  apply_ite (fun z : EStateM ε σ α => z.run s) c x y

theorem run_zoom (view : σ → τ) (put : σ → τ → σ) (x : EStateM ε τ α) (s : σ) :
    (zoom view put x).run s =
      match x.run (view s) with
      | .ok a t => .ok a (put s t)
      | .error e t => .error e (put s t) := rfl

theorem run_mapError {ε' : Type u} (f : ε → ε') (x : EStateM ε σ α) (s : σ) :
    (mapError f x).run s =
      match x.run s with
      | .ok a t => .ok a t
      | .error e t => .error (f e) t := rfl

/-- A bind that succeeded ran both halves to success. -/
theorem run_bind_eq_ok {x : EStateM ε σ α} {f : α → EStateM ε σ β} {s s' : σ} {b : β} :
    (x >>= f).run s = .ok b s' ↔ ∃ a t, x.run s = .ok a t ∧ (f a).run t = .ok b s' := by
  rw [EStateM.run_bind]
  constructor
  · intro h
    cases hx : x.run s with
    | ok a t => rw [hx] at h; exact ⟨a, t, rfl, h⟩
    | error e t => rw [hx] at h; cases h
  · rintro ⟨a, t, hx, hf⟩
    rw [hx]
    exact hf

/-- The same for a computation without a receiver. -/
theorem bind_eq_ok {x : Except ε α} {f : α → Except ε β} {b : β} :
    x >>= f = .ok b ↔ ∃ a, x = .ok a ∧ f a = .ok b := by
  constructor
  · intro h
    cases x with
    | ok a => exact ⟨a, rfl, h⟩
    | error e => cases h
  · rintro ⟨a, rfl, hf⟩
    exact hf

/-- A bind that failed did so in its first half, or in its second on what the first returned. -/
theorem bind_eq_error {x : Except ε α} {f : α → Except ε β} {e : ε}
    (h : x >>= f = .error e) : x = .error e ∨ ∃ a, x = .ok a ∧ f a = .error e := by
  cases x with
  | ok a => exact .inr ⟨a, rfl, h⟩
  | error e' =>
    cases h
    exact .inl rfl

theorem mapError_eq_ok {ε ε' α : Type} {f : ε → ε'} {x : Except ε α} {a : α} :
    x.mapError f = .ok a ↔ x = .ok a := by
  cases x with
  | ok b =>
    show (Except.ok b : Except ε' α) = .ok a ↔ (Except.ok b : Except ε α) = .ok a
    rw [Except.ok.injEq, Except.ok.injEq]
  | error e => exact iff_of_false nofun nofun

theorem toOption_eq_some {ε α : Type} {x : Except ε α} {a : α} :
    x.toOption = some a ↔ x = .ok a := by
  cases x with
  | ok b => simp [Except.toOption]
  | error e => simp [Except.toOption]

/-- `option.ok_or(e)` -/
def okOr (e : ε) : Option α → Except ε α
  | some a => .ok a
  | none => .error e

theorem okOr_eq_ok {e : ε} {x : Option α} {a : α} : okOr e x = .ok a ↔ x = some a := by
  cases x with
  | some b => simp [okOr]
  | none => simp [okOr]

theorem okOr_eq_error {e e' : ε} {x : Option α} (h : okOr e x = .error e') : e' = e ∧ x = none := by
  cases x with
  | some b => cases h
  | none =>
    cases h
    exact ⟨rfl, rfl⟩

/-! An error that no part of a computation returns is not returned by the whole. -/

theorem bind_ne_error {x : Except ε α} {f : α → Except ε β} {e : ε} (hx : x ≠ .error e)
    (hf : ∀ a, f a ≠ .error e) : x >>= f ≠ .error e := by
  intro h
  rcases bind_eq_error h with herror | ⟨a, -, herror⟩
  · exact hx herror
  · exact hf a herror

theorem okOr_ne_error {e e' : ε} (h : e ≠ e') (x : Option α) : okOr e x ≠ .error e' := fun herror =>
  h (okOr_eq_error herror).1.symm

theorem mapError_ne_error {ε ε' α : Type} {e e' : ε'} (h : e ≠ e') (x : Except ε α) :
    (x.mapError fun _ => e) ≠ .error e' := by
  cases x with
  | ok a => nofun
  | error _ => exact fun herror => h (Except.error.inj herror)

theorem map_ne_error {x : Except ε α} {e : ε} (h : x ≠ .error e) (f : α → β) :
    x.map f ≠ .error e := by
  cases x with
  | ok a => nofun
  | error _ => exact fun herror => h (congrArg _ (Except.error.inj herror))

/-- A check that was passed. -/
theorem ite_throw_eq_ok {ε : Type} {c : Prop} [Decidable c] {e : ε} :
    (if c then throw e else pure () : Except ε Unit) = .ok () ↔ ¬ c := by
  constructor
  · intro h hc
    rw [if_pos hc] at h
    cases h
  · intro hc
    rw [if_neg hc]
    rfl

/-- A check that was not. -/
theorem ite_throw_eq_error {ε : Type} {c : Prop} [Decidable c] {e e' : ε} :
    (if c then throw e else pure () : Except ε Unit) = .error e' ↔ c ∧ e = e' := by
  by_cases hc : c
  · rw [if_pos hc]
    constructor
    · rintro ⟨⟩
      exact ⟨hc, rfl⟩
    · rintro ⟨-, rfl⟩
      rfl
  · rw [if_neg hc]
    constructor
    · intro h
      cases h
    · exact fun h => absurd h.1 hc

/-- A transitive relation between a receiver and what becomes of it holds over a bind if it holds
over the parts that run, wherever the bind stops. -/
theorem state_bind {R : σ → σ → Prop} (htrans : ∀ {s t u}, R s t → R t u → R s u)
    {x : EStateM ε σ α} {f : α → EStateM ε σ β} {s : σ} (hx : R s (state (x.run s)))
    (hf : ∀ a t, x.run s = .ok a t → R t (state ((f a).run t))) :
    R s (state ((x >>= f).run s)) := by
  rw [EStateM.run_bind]
  rcases hrun : x.run s with ⟨a, t⟩ | ⟨e, t⟩
  · rw [hrun] at hx
    exact htrans hx (hf a t hrun)
  · rw [hrun] at hx
    exact hx

/-! ## Loops and sequences of calls -/

variable {ι : Type*} {indices : List ι}

@[simp] theorem run_forM_nil {ε σ : Type} (f : ι → EStateM ε σ Unit) (s : σ) :
    (([] : List ι).forM f).run s = .ok () s := rfl

/-- A loop runs its body on the first element and goes on only if that succeeded. -/
theorem run_forM_cons {ε σ : Type} (f : ι → EStateM ε σ Unit) (i : ι) (rest : List ι) (s : σ) :
    ((i :: rest).forM f).run s =
      match (f i).run s with
      | .ok _ s' => (rest.forM f).run s'
      | .error e s' => .error e s' := by
  show (f i >>= fun _ => rest.forM f).run s = _
  rw [EStateM.run_bind]
  cases (f i).run s <;> rfl

theorem run_forM_cons_eq_ok {ε σ : Type} {f : ι → EStateM ε σ Unit} {i : ι} {rest : List ι}
    {s s' : σ} :
    ((i :: rest).forM f).run s = .ok () s' ↔
      ∃ t, (f i).run s = .ok () t ∧ (rest.forM f).run t = .ok () s' := by
  rw [run_forM_cons]
  constructor
  · intro h
    cases hi : (f i).run s with
    | ok u t => rw [hi] at h; exact ⟨t, rfl, h⟩
    | error e t => rw [hi] at h; cases h
  · rintro ⟨t, hi, h⟩
    rw [hi]
    exact h

/-- A loop whose rounds cannot fail does not fail. -/
theorem run_forM_ok {ε σ : Type} {f : ι → EStateM ε σ Unit}
    (hbody : ∀ i ∈ indices, ∀ s, ∃ t, (f i).run s = .ok () t) (s : σ) :
    ∃ t, (indices.forM f).run s = .ok () t := by
  induction indices generalizing s with
  | nil => exact ⟨s, rfl⟩
  | cons i rest ih =>
    obtain ⟨hfirst, hrest⟩ := List.forall_mem_cons.mp hbody
    obtain ⟨t, ht⟩ := hfirst s
    obtain ⟨u, hu⟩ := ih hrest t
    exact ⟨u, run_forM_cons_eq_ok.mpr ⟨t, ht, hu⟩⟩

/-- A reflexive and transitive relation that every round keeps holds over as many rounds as were
run. -/
theorem state_forM {ε σ : Type} {R : σ → σ → Prop} (hrefl : ∀ s, R s s)
    (htrans : ∀ {s t u}, R s t → R t u → R s u) {f : ι → EStateM ε σ Unit}
    (hbody : ∀ i ∈ indices, ∀ s, R s (state ((f i).run s))) (s : σ) :
    R s (state ((indices.forM f).run s)) := by
  induction indices generalizing s with
  | nil => exact hrefl s
  | cons i rest ih =>
    obtain ⟨hfirst, hrest⟩ := List.forall_mem_cons.mp hbody
    show R s (state ((f i >>= fun _ => rest.forM f).run s))
    exact state_bind (R := R) htrans (f := fun _ => rest.forM f) (hfirst s)
      fun _ t _ => ih hrest t

/-- A loop that succeeds keeps an invariant and has established, for each element, what its round
establishes and the later rounds do not undo. -/
theorem forM_establishes {ε σ : Type} {I : σ → Prop} {Q : ι → σ → Prop} {f : ι → EStateM ε σ Unit}
    (hbody : ∀ i ∈ indices, ∀ s t, I s → (f i).run s = .ok () t → I t ∧ Q i t ∧ ∀ j, Q j s → Q j t)
    {s t : σ} (hs : I s) (hrun : (indices.forM f).run s = .ok () t) :
    I t ∧ (∀ i ∈ indices, Q i t) ∧ ∀ j, Q j s → Q j t := by
  induction indices generalizing s with
  | nil =>
    cases hrun
    exact ⟨hs, List.forall_mem_nil _, fun _ h => h⟩
  | cons i rest ih =>
    obtain ⟨hfirst, hrest⟩ := List.forall_mem_cons.mp hbody
    obtain ⟨u, hi, hloop⟩ := run_forM_cons_eq_ok.mp hrun
    obtain ⟨hu, hQ, hkeep⟩ := hfirst s u hs hi
    obtain ⟨ht, hall, hkeeps⟩ := ih hrest hu hloop
    exact ⟨ht, List.forall_mem_cons.mpr ⟨hkeeps i hQ, hall⟩, fun j h => hkeeps j (hkeep j h)⟩

/-- A loop whose rounds all find their work done does nothing. -/
theorem run_forM_idle {ε σ : Type} {f : ι → EStateM ε σ Unit} {s : σ}
    (hbody : ∀ i ∈ indices, (f i).run s = .ok () s) :
    (indices.forM f).run s = .ok () s := by
  induction indices with
  | nil => rfl
  | cons i rest ih =>
    obtain ⟨hfirst, hrest⟩ := List.forall_mem_cons.mp hbody
    exact run_forM_cons_eq_ok.mpr ⟨s, hfirst, ih hrest⟩

/-! ## Calls that succeed -/

variable {R : β → σ → Prop}

/-- From a receiver with `P`, a call that succeeds returns a value and leaves a receiver with `Q`.
-/
def Ensures (P : σ → Prop) (x : EStateM ε σ α) (Q : α → σ → Prop) : Prop :=
  ∀ s a t, P s → x.run s = .ok a t → Q a t

section Ensures

variable {P : σ → Prop} {x : EStateM ε σ α} {Q Q' : α → σ → Prop}

theorem Ensures.bind {f : α → EStateM ε σ β} (h : Ensures P x Q) (hf : ∀ a, Ensures (Q a) (f a) R) :
    Ensures P (x >>= f) R := by
  intro s b u hP hrun
  obtain ⟨a, t, hx, hfa⟩ := run_bind_eq_ok.mp hrun
  exact hf a t b u (h s a t hP hx) hfa

theorem Ensures.pure {a : α} (h : ∀ s, P s → Q a s) :
    Ensures P (Pure.pure a : EStateM ε σ α) Q := by
  rintro s _ _ hP ⟨⟩
  exact h s hP

theorem Ensures.throw {e : ε} : Ensures P (MonadExcept.throw e : EStateM ε σ α) Q := by
  rintro s _ _ _ ⟨⟩

theorem Ensures.post (h : Ensures P x Q) (himp : ∀ a s, Q a s → Q' a s) : Ensures P x Q' :=
  fun s a t hP hrun => himp a t (h s a t hP hrun)

theorem Ensures.get_bind {f : σ → EStateM ε σ β} (h : ∀ s, P s → Ensures P (f s) R) :
    Ensures P (MonadState.get >>= f) R :=
  fun s b u hP hrun => h s hP s b u hP hrun

theorem Ensures.lift_bind {y : Except ε α} {f : α → EStateM ε σ β}
    (h : ∀ a, y = .ok a → Ensures P (f a) R) : Ensures P (lift y >>= f) R := by
  intro s b u hP hrun
  obtain ⟨a, t, hy, hfa⟩ := run_bind_eq_ok.mp hrun
  obtain ⟨hya, rfl⟩ := run_lift_eq_ok.mp hy
  exact h a hya s b u hP hfa

theorem Ensures.mapError {ε' : Type u} {f : ε → ε'} (h : Ensures P x Q) :
    Ensures P (Fallible.mapError f x) Q := by
  intro s a t hP hrun
  rw [run_mapError] at hrun
  rcases hx : x.run s with ⟨b, u⟩ | ⟨e, u⟩
  · rw [hx] at hrun
    cases hrun
    exact h s _ _ hP hx
  · rw [hx] at hrun
    cases hrun

end Ensures

/-- A loop of checks is passed if each of them is. -/
theorem forM_eq_ok {ε : Type} {f : ι → Except ε Unit} {items : List ι} :
    items.forM f = .ok () ↔ ∀ i ∈ items, f i = .ok () := by
  induction items with
  | nil => exact ⟨fun _ i hi => absurd hi List.not_mem_nil, fun _ => rfl⟩
  | cons i rest ih =>
    show (f i >>= fun _ => rest.forM f) = .ok () ↔ _
    rw [bind_eq_ok, List.forall_mem_cons, ← ih]
    constructor
    · rintro ⟨⟨⟩, hi, hrest⟩
      exact ⟨hi, hrest⟩
    · rintro ⟨hi, hrest⟩
      exact ⟨(), hi, hrest⟩

/-- A property that every round of a loop preserves, if it succeeds, holds at the end if all do. -/
theorem foldlM_invariant {β : Type*} {ε : Type u} {f : β → ι → Except ε β} {P : β → Prop}
    (hstep : ∀ b i c, P b → f b i = .ok c → P c) {items : List ι} {b c : β} (hb : P b)
    (hrun : items.foldlM f b = .ok c) : P c := by
  induction items generalizing b with
  | nil =>
    cases hrun
    exact hb
  | cons i rest ih =>
    rw [List.foldlM_cons] at hrun
    cases hfirst : f b i with
    | error e =>
      rw [hfirst] at hrun
      cases hrun
    | ok mid =>
      rw [hfirst] at hrun
      exact ih (hstep b i mid hb hfirst) hrun

/-- A property that every call preserves, whatever its outcome, survives any sequence of calls. -/
theorem foldl_invariant {γ : Type*} (step : γ → ι → γ) (P : γ → Prop)
    (hstep : ∀ s i, P s → P (step s i)) (calls : List ι) {s : γ} (hs : P s) :
    P (calls.foldl step s) := by
  induction calls generalizing s with
  | nil => exact hs
  | cons c rest ih => exact ih (hstep s c hs)

end Fallible
