/-
# Tvisor.Lib.Selection -- enumeration in order by repeated scans

An iterator that keeps no copy of its collection can still go through it in ascending order: it
remembers the key of the last element it gave out and scans for the least key above it. `Yields`
says what an iterator gives out until it ends, `leastAbove` is the scan, and `yields_leastAbove`
says that distinct keys make the enumeration end with every element given out once, in order.

A scan may also look for the only index with a property. `Seen` is what it remembers on the way, and
a second hit ends it.
-/
import Mathlib.Data.List.MinMax
import Mathlib.Data.List.Nodup

namespace Selection

/-! ## Iterators -/

section Iterators

variable {α σ : Type}

/-- The iterator, from this state on, gives out these elements and then ends. -/
inductive Yields (next : σ → Option α × σ) : σ → List α → Prop
  | done {s s' : σ} (h : next s = (none, s')) : Yields next s []
  | more {s s' : σ} {a : α} {items : List α} (h : next s = (some a, s'))
      (rest : Yields next s' items) : Yields next s (a :: items)

/-- What an iterator gives out is determined by its state. -/
theorem Yields.unique {next : σ → Option α × σ} {s : σ} {items items' : List α}
    (h : Yields next s items) (h' : Yields next s items') : items = items' := by
  induction h generalizing items' with
  | done hnext =>
    cases h' with
    | done => rfl
    | more hnext' => rw [hnext] at hnext'; cases hnext'
  | more hnext rest ih =>
    cases h' with
    | done hnext' => rw [hnext] at hnext'; cases hnext'
    | more hnext' rest' =>
      rw [hnext] at hnext'
      cases hnext'
      rw [ih rest']

/-- An iterator that follows another one step by step gives out the same. -/
theorem Yields.follow {τ : Type} {next : σ → Option α × σ} {next' : τ → Option α × τ} (f : σ → τ)
    (hstep : ∀ s, next' (f s) = ((next s).1, f (next s).2)) {s : σ} {items : List α}
    (h : Yields next s items) : Yields next' (f s) items := by
  induction h with
  | done hnext => exact .done (by rw [hstep, hnext])
  | more hnext _ ih => exact .more (by rw [hstep, hnext]) ih

end Iterators

/-! ## The scan -/

section Scan

variable {α κ : Type} [LinearOrder κ] (key : α → κ)

/-- The element comes after the key that was given out last. -/
def IsAbove (previous : Option κ) (x : α) : Prop := ∀ p ∈ previous, p < key x

instance (previous : Option κ) : DecidablePred (IsAbove key previous) := fun _ =>
  inferInstanceAs (Decidable (∀ p ∈ previous, _))

/-- The first element with the least key above the previous one. -/
def leastAbove (previous : Option κ) (xs : List α) : Option α :=
  (xs.filter (IsAbove key previous)).argmin key

/-- The same as one pass that keeps the best element so far. -/
theorem foldl_eq_leastAbove (previous : Option κ) (xs : List α) :
    xs.foldl (fun best x =>
      if IsAbove key previous x ∧ ∀ c ∈ best, key x < key c then some x else best) none =
      leastAbove key previous xs := by
  rw [leastAbove, List.argmin, List.foldl_filter]
  refine congrArg (fun f => xs.foldl f none) (funext fun best => funext fun x => ?_)
  by_cases habove : IsAbove key previous x
  · cases best with
    | none => simp [habove, List.argAux]
    | some c => simp [habove, List.argAux]
  · simp [habove]

variable {key} {previous : Option κ} {xs : List α}

theorem mem_above {y : α} :
    y ∈ xs.filter (IsAbove key previous) ↔ y ∈ xs ∧ ∀ p ∈ previous, p < key y := by
  rw [List.mem_filter, decide_eq_true_eq, IsAbove]

theorem leastAbove_eq_none (h : leastAbove key previous xs = none) :
    xs.filter (IsAbove key previous) = [] := List.argmin_eq_none.mp h

/-- The element that the scan finds comes first, and those with a greater key are left. -/
theorem leastAbove_eq_some (hkeys : (xs.map key).Nodup) {x : α}
    (h : leastAbove key previous xs = some x) :
    (xs.filter (IsAbove key previous)).Perm (x :: xs.filter (IsAbove key (some (key x)))) := by
  obtain ⟨hx, habove⟩ := mem_above.mp (List.argmin_mem h)
  have hnodup : xs.Nodup := .of_map key hkeys
  have hlast : x ∉ xs.filter (IsAbove key (some (key x))) := fun hmem =>
    lt_irrefl (key x) ((mem_above.mp hmem).2 (key x) rfl)
  rw [List.perm_ext_iff_of_nodup (hnodup.filter _) (List.nodup_cons.mpr ⟨hlast, hnodup.filter _⟩)]
  intro y
  rw [List.mem_cons, mem_above, mem_above]
  constructor
  · rintro ⟨hy, hyabove⟩
    rcases (List.le_of_mem_argmin (mem_above.mpr ⟨hy, hyabove⟩) h).eq_or_lt with heq | hlt
    · exact Or.inl (List.inj_on_of_nodup_map hkeys hy hx heq.symm)
    · exact Or.inr ⟨hy, by rintro _ ⟨⟩; exact hlt⟩
  · rintro (rfl | ⟨hy, hyabove⟩)
    · exact ⟨hx, habove⟩
    · exact ⟨hy, fun p hp => (habove p hp).trans (hyabove (key x) rfl)⟩

/-! ## Enumeration -/

variable (key) in
/-- One step of an enumeration of `xs`; the state is the key given out last. -/
def next (xs : List α) (previous : Option κ) : Option α × Option κ :=
  match leastAbove key previous xs with
  | none => (none, previous)
  | some x => (some x, some (key x))

/-- Where the keys are distinct the enumeration ends, with every element above the previous key
given out once and in ascending order. -/
theorem yields_leastAbove (hkeys : (xs.map key).Nodup) (previous : Option κ) :
    ∃ items, Yields (next key xs) previous items ∧
      items.Perm (xs.filter (IsAbove key previous)) ∧ items.Pairwise fun a b => key a < key b := by
  -- Each step leaves one element fewer above the key it has given out.
  induction hleft : (xs.filter (IsAbove key previous)).length generalizing previous with
  | zero =>
    have hnil := List.eq_nil_of_length_eq_zero hleft
    have hnone : leastAbove key previous xs = none := by rw [leastAbove, hnil]; rfl
    exact ⟨[], .done (by rw [next, hnone]), by rw [hnil], .nil⟩
  | succ n ih =>
    cases hfound : leastAbove key previous xs with
    | none =>
      rw [leastAbove_eq_none hfound] at hleft
      cases hleft
    | some x =>
      have hperm := leastAbove_eq_some hkeys hfound
      obtain ⟨items, hyields, hitems, hsorted⟩ := ih (some (key x))
        (Nat.succ.inj (hperm.length_eq.symm.trans hleft))
      refine ⟨x :: items, .more (by rw [next, hfound]) hyields,
        (hitems.cons x).trans hperm.symm, List.pairwise_cons.mpr ⟨?_, hsorted⟩⟩
      intro y hy
      exact (mem_above.mp (hitems.subset hy)).2 (key x) rfl

end Scan

/-! ## The only one -/

section Sole

variable {p : Nat → Prop} {n m i : Nat} {found : Option Nat}

/-- The only index below `n` with the property. -/
def Sole (p : Nat → Prop) (n i : Nat) : Prop := i < n ∧ p i ∧ ∀ j < n, p j → j = i

/-- What a scan up to `n` has found. -/
def Seen (p : Nat → Prop) (n : Nat) : Option Nat → Prop
  | none => ∀ j < n, ¬ p j
  | some i => Sole p n i

theorem seen_zero : Seen p 0 none := fun _ h => absurd h (Nat.not_lt_zero _)

theorem Seen.skip (h : Seen p n found) (hn : ¬ p n) : Seen p (n + 1) found := by
  cases found with
  | none =>
    intro j hj
    rcases Nat.lt_succ_iff_lt_or_eq.mp hj with hlt | rfl
    · exact h j hlt
    · exact hn
  | some i =>
    obtain ⟨hi, hp, honly⟩ := h
    refine ⟨by omega, hp, fun j hj hpj => ?_⟩
    rcases Nat.lt_succ_iff_lt_or_eq.mp hj with hlt | rfl
    · exact honly j hlt hpj
    · exact absurd hpj hn

theorem Seen.first (h : Seen p n none) (hn : p n) : Seen p (n + 1) (some n) := by
  refine ⟨Nat.lt_succ_self n, hn, fun j hj hpj => ?_⟩
  by_contra hne
  exact h j (by omega) hpj

/-- After a second hit there is no only one, whatever comes. -/
theorem Seen.clash (h : Seen p n (some i)) (hn : p n) (hm : n < m) (k : Nat) : ¬ Sole p m k := by
  rintro ⟨-, -, honly⟩
  have hfirst := honly i (by have := h.1; omega) h.2.1
  have hsecond := honly n hm hn
  have hlt := h.1
  omega

theorem Seen.eq_some_iff (h : Seen p n found) : found = some i ↔ Sole p n i := by
  cases found with
  | none => exact iff_of_false nofun fun hi => h i hi.1 hi.2.1
  | some j =>
    refine ⟨fun heq => Option.some.inj heq ▸ h, fun hi => ?_⟩
    rw [hi.2.2 j h.1 h.2.1]

end Sole

end Selection
