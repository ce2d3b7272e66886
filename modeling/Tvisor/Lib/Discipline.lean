/-
# Tvisor.Lib.Discipline -- what calls promise, and what the memory then keeps

A lock is kept by everyone who uses it: each call promises something about its own operations, such
as to open only what it has closed itself, and from the promises of all calls together follows what
the memory holds at every moment. A `Discipline` is such a promise, of an operation after the past
of its own call, with the invariant that every promised operation keeps. A promise about a part of
the memory is one about the whole memory (`Discipline.lift`), and promises add up.

`holds` is what it is for: if the code of every call keeps the discipline whatever it reads, then in
every interleaving each operation was made in a memory with the invariant.
-/
import Mathlib.Data.List.Basic
import Tvisor.Lib.Traces

namespace Interleave

variable {Loc Loc' : Type} {Val : Loc → Type} {Val' : Loc' → Type} {Tid Call Reply Env A : Type}

/-! ## Parts of the memory -/

section Parts

variable {f : Loc → Loc'} {a : Action Val'} {b : Action fun l => Val' (f l)}

open Classical in
/-- The operation as one on a part of the memory, if it is one. -/
noncomputable def Action.part (f : Loc → Loc') (a : Action Val') :
    Option (Action fun l => Val' (f l)) :=
  if h : ∃ b : Action fun l => Val' (f l), a = b.embed f then some h.choose else none

theorem Action.embed_injective (hf : Function.Injective f) :
    Function.Injective (Action.embed f : Action (fun l => Val' (f l)) → Action Val') := by
  intro b b' h
  have hloc : b.loc = b'.loc := by
    have hloc := congrArg Action.loc h
    rw [embed_loc, embed_loc] at hloc
    exact hf hloc
  cases b <;> cases b' <;> cases hloc <;> cases h <;> rfl

theorem Action.part_eq_some (hf : Function.Injective f) : a.part f = some b ↔ a = b.embed f := by
  unfold part
  constructor
  · intro h
    split at h
    · rename_i hex
      rw [← Option.some.inj h]
      exact hex.choose_spec
    · cases h
  · intro h
    have hex : ∃ b : Action fun l => Val' (f l), a = b.embed f := ⟨b, h⟩
    rw [dif_pos hex]
    exact congrArg some (embed_injective hf (hex.choose_spec.symm.trans h))

theorem Action.part_embed (hf : Function.Injective f) (b : Action fun l => Val' (f l)) :
    (b.embed f).part f = some b := (part_eq_some hf).mpr rfl

theorem Action.part_eq_none : a.part f = none ↔ ∀ l, a.loc ≠ f l := by
  unfold part
  constructor
  · intro h l hl
    split at h
    · cases h
    · rename_i hnone
      refine hnone ?_
      cases a <;> cases hl
      · exact ⟨.load l _, rfl⟩
      · exact ⟨.store l _, rfl⟩
      · exact ⟨.exchange l _ _ _, rfl⟩
      · exact ⟨.swap l _ _, rfl⟩
  · intro h
    rw [dif_neg]
    rintro ⟨b, rfl⟩
    exact h b.loc (embed_loc f b)

theorem Action.Enabled.of_embed {m : ∀ l, Val' l} (h : (b.embed f).Enabled m) :
    b.Enabled fun l => m (f l) := by
  cases b <;> exact h

/-- An operation on the part changes the part alone. -/
theorem Action.apply_embed [DecidableEq Loc] [DecidableEq Loc'] (hf : Function.Injective f)
    (m : ∀ l, Val' l) : (fun l => (b.embed f).apply m (f l)) = b.apply fun l => m (f l) := by
  cases b with
  | load l v => rfl
  | store l v => exact Function.update_comp_eq_of_injective' m hf l v
  | exchange l e n success =>
    cases success with
    | false => rfl
    | true => exact Function.update_comp_eq_of_injective' m hf l n
  | swap l n old => exact Function.update_comp_eq_of_injective' m hf l n

/-- What a list of operations has done in the part. -/
noncomputable abbrev partOf (f : Loc → Loc') (past : List (Action Val')) :
    List (Action fun l => Val' (f l)) :=
  past.filterMap (Action.part f)

theorem embed_mem_of_partOf {past : List (Action Val')} (hf : Function.Injective f)
    (h : b ∈ partOf f past) : b.embed f ∈ past := by
  obtain ⟨a, ha, hpart⟩ := List.mem_filterMap.mp h
  exact (Action.part_eq_some hf).mp hpart ▸ ha

/-- A program on the part, walked through there, with a fact that its operations keep. -/
theorem Prog.Along.embed_part {ok : List (Action fun l => Val' (f l)) → _ → Prop}
    {ok' : List (Action Val') → Action Val' → Prop} {P : List (Action Val') → Prop}
    {Q : A → List (Action fun l => Val' (f l)) → Prop} {p : Prog (fun l => Val' (f l)) A}
    {past : List (Action Val')} (hf : Function.Injective f) (h : p.Along ok Q (partOf f past))
    (hok : ∀ past b, ok (partOf f past) b → ok' past (b.embed f))
    (hkeep : ∀ past (b : Action fun l => Val' (f l)), P past → P (b.embed f :: past))
    (hP : P past) : (p.embed f).Along ok' (fun r past' => Q r (partOf f past') ∧ P past') past := by
  have hpart : ∀ (b : Action fun l => Val' (f l)) past,
      partOf f (b.embed f :: past) = b :: partOf f past :=
    fun b past => List.filterMap_cons_some (Action.part_embed hf b)
  have hnext : ∀ {p : Prog (fun l => Val' (f l)) A} {past} (b : Action fun l => Val' (f l)),
      ok (partOf f past) b ∧ p.Along ok Q (b :: partOf f past) → P past →
      ok' past (b.embed f) ∧ p.Along ok Q (partOf f (b.embed f :: past)) ∧ P (b.embed f :: past) :=
    fun b h hP => ⟨hok _ b h.1, (hpart b _).symm ▸ h.2, hkeep _ b hP⟩
  induction p generalizing past with
  | ret a => exact ⟨h, hP⟩
  | load l k ih => exact fun v => (hnext (.load l v) (h v) hP).imp_right fun h => ih v h.1 h.2
  | store l v k ih => exact (hnext (.store l v) h hP).imp_right fun h => ih h.1 h.2
  | exchange l e n k ih =>
    exact fun s => (hnext (.exchange l e n s) (h s) hP).imp_right fun h => ih s h.1 h.2
  | swap l n k ih => exact fun v => (hnext (.swap l n v) (h v) hP).imp_right fun h => ih v h.1 h.2

end Parts

/-! ## Disciplines -/

/-- A promise about each operation, after the past of its own call, newest first, and an invariant
of the memory and all pasts that it keeps. -/
structure Discipline [DecidableEq Loc] (Val : Loc → Type) where
  ok : List (Action Val) → Action Val → Prop
  Inv : (∀ l, Val l) → (Nat → List (Action Val)) → Prop
  step : ∀ {m pasts i a}, Inv m pasts → a.Enabled m → ok (pasts i) a →
    Inv (a.apply m) (Function.update pasts i (a :: pasts i))

namespace Discipline

section Operations

variable [DecidableEq Loc] [DecidableEq Loc']

/-- The discipline of a part of the memory. -/
noncomputable def lift {f : Loc → Loc'} (hf : Function.Injective f)
    (D : Discipline fun l => Val' (f l)) : Discipline Val' where
  ok past a := ∀ b, a.part f = some b → D.ok (partOf f past) b
  Inv m pasts := D.Inv (fun l => m (f l)) fun i => partOf f (pasts i)
  step := by
    intro m pasts i a hinv henabled hok
    have hpasts : (fun j => partOf f (Function.update pasts i (a :: pasts i) j)) =
        Function.update (fun j => partOf f (pasts j)) i (partOf f (a :: pasts i)) := by
      funext j
      by_cases hj : j = i
      · subst hj
        rw [Function.update_self, Function.update_self]
      · rw [Function.update_of_ne hj, Function.update_of_ne hj]
    rw [hpasts]
    cases hpart : a.part f with
    | some b =>
      obtain rfl := (Action.part_eq_some hf).mp hpart
      rw [partOf, List.filterMap_cons_some hpart, Action.apply_embed hf]
      exact D.step hinv henabled.of_embed (hok b hpart)
    | none =>
      rw [partOf, List.filterMap_cons_none hpart]
      have hmem : (fun l => a.apply m (f l)) = fun l => m (f l) :=
        funext fun l => a.apply_of_ne (Action.part_eq_none.mp hpart l).symm m
      have hsame : Function.update (fun j => partOf f (pasts j)) i (partOf f (pasts i)) =
          fun j => partOf f (pasts j) := Function.update_eq_self i _
      rw [hmem, hsame]
      exact hinv

/-- Two disciplines at once. -/
def and (D D' : Discipline Val) : Discipline Val where
  ok past a := D.ok past a ∧ D'.ok past a
  Inv m pasts := D.Inv m pasts ∧ D'.Inv m pasts
  step hinv henabled hok := ⟨D.step hinv.1 henabled hok.1, D'.step hinv.2 henabled hok.2⟩

/-- Many of them. -/
def all {ι : Type} (D : ι → Discipline Val) : Discipline Val where
  ok past a := ∀ x, (D x).ok past a
  Inv m pasts := ∀ x, (D x).Inv m pasts
  step hinv henabled hok x := (D x).step (hinv x) henabled (hok x)

section Lift

variable {f : Loc → Loc'} (hf : Function.Injective f) {D : Discipline fun l => Val' (f l)}
  {past : List (Action Val')}

theorem lift_embed {b : Action fun l => Val' (f l)} :
    (D.lift hf).ok past (b.embed f) ↔ D.ok (partOf f past) b := by
  constructor
  · exact fun h => h b (Action.part_embed hf b)
  · intro h b' hb'
    rw [Action.part_embed hf] at hb'
    exact Option.some.inj hb' ▸ h

theorem lift_of_ne {a : Action Val'} (h : ∀ l, a.loc ≠ f l) : (D.lift hf).ok past a := by
  intro b hb
  rw [Action.part_eq_none.mpr h] at hb
  cases hb

/-- An operation of another part. -/
theorem lift_of_apart {Loc'' : Type} {g : Loc'' → Loc'} {b : Action fun l => Val' (g l)}
    (h : ∀ l l', g l ≠ f l') : (D.lift hf).ok past (b.embed g) := by
  refine lift_of_ne hf fun l => ?_
  rw [Action.embed_loc]
  exact h _ l

end Lift

end Operations

/-! ## Runs -/

variable {history : List (Event Val Tid Call Reply)} {i : Invocation Val Tid Call}

/-- The past of each call, by its number. -/
def pastsOf : List (Event Val Tid Call Reply) → Nat → List (Action Val)
  | [] => fun _ => []
  | .act i a :: history =>
      Function.update (pastsOf history) i.number (a :: pastsOf history i.number)
  | _ :: history => pastsOf history

theorem pastsOf_eq_own (i : Invocation Val Tid Call) (history : List (Event Val Tid Call Reply)) :
    pastsOf history i.number = own i history := by
  induction history with
  | nil => rfl
  | cons ev history ih =>
    cases ev with
    | start j => exact ih
    | ret j r => exact ih
    | act j a =>
      by_cases hj : j.number = i.number
      · rw [own, if_pos hj, pastsOf, hj, Function.update_self, ih]
      · rw [own_act_of_ne hj, pastsOf, Function.update_of_ne (Ne.symm hj), ih]

theorem mem_pastsOf {n : Nat} {a : Action Val} :
    a ∈ pastsOf history n ↔ ∃ i, i.number = n ∧ .act i a ∈ history := by
  induction history with
  | nil => simp [pastsOf]
  | cons ev history ih =>
    cases ev with
    | start j => simp [pastsOf, ih]
    | ret j r => simp [pastsOf, ih]
    | act j b =>
      by_cases hj : j.number = n
      · subst hj
        rw [pastsOf, Function.update_self, List.mem_cons, ih]
        constructor
        · rintro (rfl | ⟨i, hi, hmem⟩)
          · exact ⟨j, rfl, List.mem_cons_self⟩
          · exact ⟨i, hi, List.mem_cons_of_mem _ hmem⟩
        · rintro ⟨i, hi, hmem⟩
          rcases List.mem_cons.mp hmem with heq | hmem
          · cases heq
            exact .inl rfl
          · exact .inr ⟨i, hi, hmem⟩
      · rw [pastsOf, Function.update_of_ne (Ne.symm hj), ih]
        refine exists_congr fun i => and_congr_right fun hi =>
          ⟨List.mem_cons_of_mem _, fun hmem => ?_⟩
        rcases List.mem_cons.mp hmem with heq | hmem
        · cases heq
          exact absurd hi hj
        · exact hmem

/-- A program does what the memory lets it do. -/
theorem step_enabled [∀ l, DecidableEq (Val l)] {p p' : Prog Val A} {a : Action Val}
    {m : ∀ l, Val l} (h : p.step m = some (a, p')) : a.Enabled m := by
  cases p with
  | ret r => cases h
  | load l k =>
    cases h
    rfl
  | store l v k =>
    cases h
    trivial
  | exchange l e n k =>
    cases h
    exact decide_eq_true_iff
  | swap l n k =>
    cases h
    rfl

variable [DecidableEq Loc] [∀ l, DecidableEq (Val l)] [DecidableEq Tid]
  {S : System Val Tid Call Reply Env}
  {Q : Call → Reply → List (Action Val) → Prop} {c : Config Val Tid Call Reply Env}
  {m : ∀ l, Val l} {env : Env}

/-- In every interleaving of calls that keep the discipline, the memory has the invariant, and each
operation was made in a memory that had it. -/
theorem holds (D : Discipline Val) (hcode : ∀ call, (S.code call).Along D.ok (Q call) [])
    (hinit : D.Inv m fun _ => []) (hreach : Reach S ⟨m, env, []⟩ c) :
    D.Inv c.shared.mem (pastsOf c.shared.history) ∧
      ∀ i a, .act i a ∈ c.shared.history → ∃ m pasts, D.Inv m pasts ∧ a.Enabled m ∧
        D.ok (pasts i.number) a := by
  induction hreach with
  | refl => exact ⟨hinit, nofun⟩
  | @tail c c' hreach hstep ih =>
    obtain ⟨ev, hstep⟩ := hstep
    obtain ⟨hinv, hacts⟩ := ih
    have htraced := traced hcode (hreach.tail ⟨ev, hstep⟩)
    cases hstep with
    | start => exact ⟨hinv, fun i a hact => hacts i a (act_mem_of_ne (Event.start_ne_act _) hact)⟩
    | ret => exact ⟨hinv, fun i a hact => hacts i a (act_mem_of_ne (Event.ret_ne_act _ · _) hact)⟩
    | @act t i p p' a hframe hnext =>
      have henabled : a.Enabled c.shared.mem := step_enabled hnext
      have hok := htraced.act i a c.shared.history (List.suffix_refl _)
      rw [← pastsOf_eq_own] at hok
      refine ⟨D.step hinv henabled hok, fun j b hact => ?_⟩
      rcases List.mem_cons.mp hact with heq | hold
      · cases heq
        exact ⟨_, _, hinv, henabled, hok⟩
      · exact hacts j b hold

end Discipline

end Interleave
