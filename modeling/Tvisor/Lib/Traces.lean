/-
# Tvisor.Lib.Traces -- what a call has done before

Some facts about concurrent code need no invariant of the shared memory: "this store is made only
after that load has read zero" holds of the code of the call alone, whatever the others do.
`Prog.Along` is the form of such facts: it walks through a program with the operations already made
and asks of each operation that it is in order after those. `traced` carries this to the history of
a system: the operations of one invocation, picked out of the history, are a run of its code.
-/
import Mathlib.Data.List.Infix
import Tvisor.Lib.Interleave

namespace Interleave

variable {Loc : Type} {Val : Loc → Type} {Tid Call Reply Env ε A B : Type}
variable {p : Prog Val A} {a : Action Val} {i : Invocation Val Tid Call}

variable {may : Action Val → Prop}

variable {R : Except ε B → List (Action Val) → Prop} {f : A → ExceptT ε (Prog Val) B}
  {ops : List (Action Val)}

namespace Prog

/-- With these operations behind it, newest first, every operation the program comes to is in order,
whatever it reads, and so is every result. -/
def Along (ok : List (Action Val) → Action Val → Prop) (Q : A → List (Action Val) → Prop) :
    Prog Val A → List (Action Val) → Prop
  | .ret a, past => Q a past
  | .load l k, past => ∀ v, ok past (.load l v) ∧ (k v).Along ok Q (.load l v :: past)
  | .store l v k, past => ok past (.store l v) ∧ k.Along ok Q (.store l v :: past)
  | .exchange l e n k, past =>
      ∀ b, ok past (.exchange l e n b) ∧ (k b).Along ok Q (.exchange l e n b :: past)
  | .swap l n k, past => ∀ v, ok past (.swap l n v) ∧ (k v).Along ok Q (.swap l n v :: past)

variable {ok : List (Action Val) → Action Val → Prop} {Q Q' : A → List (Action Val) → Prop}
  {past : List (Action Val)}

theorem Along.bind {R : B → List (Action Val) → Prop} {f : A → Prog Val B}
    (h : p.Along ok Q past) (hf : ∀ a past, Q a past → (f a).Along ok R past) :
    (p >>= f).Along ok R past := by
  induction p generalizing past with
  | ret a => exact hf a past h
  | load l k ih | swap l n k ih => exact fun v => ⟨(h v).1, ih v (h v).2⟩
  | store l v k ih => exact ⟨h.1, ih h.2⟩
  | exchange l e n k ih => exact fun b => ⟨(h b).1, ih b (h b).2⟩

/-- What is in order by one rule is so by another that asks less, given a fact about the past that
the operations keep. -/
theorem Along.imp {ok' : List (Action Val) → Action Val → Prop} {P : List (Action Val) → Prop}
    (h : p.Along ok Q past) (hok : ∀ past a, P past → ok past a → ok' past a ∧ P (a :: past))
    (himp : ∀ a past, P past → Q a past → Q' a past) (hP : P past) : p.Along ok' Q' past := by
  induction p generalizing past with
  | ret a => exact himp a past hP h
  | load l k ih | swap l n k ih => exact fun v => (hok past _ hP (h v).1).imp_right (ih v (h v).2)
  | store l v k ih => exact (hok past _ hP h.1).imp_right (ih h.2)
  | exchange l e n k ih => exact fun b => (hok past _ hP (h b).1).imp_right (ih b (h b).2)

theorem Along.post (h : p.Along ok Q past)
    (himp : ∀ a past, Q a past → Q' a past) : p.Along ok Q' past :=
  h.imp (P := fun _ => True) (fun _ _ _ hok => ⟨hok, trivial⟩) (fun a past _ => himp a past) trivial

theorem Along.and (h : p.Along ok Q past) (h' : p.Along ok Q' past) :
    p.Along ok (fun a past => Q a past ∧ Q' a past) past := by
  induction p generalizing past with
  | ret a => exact ⟨h, h'⟩
  | load l k ih | swap l n k ih => exact fun v => ⟨(h v).1, ih v (h v).2 (h' v).2⟩
  | store l v k ih => exact ⟨h.1, ih h.2 h'.2⟩
  | exchange l e n k ih => exact fun b => ⟨(h b).1, ih b (h b).2 (h' b).2⟩

theorem Along.run_bind {Q : Except ε A → List (Action Val) → Prop} {x : ExceptT ε (Prog Val) A}
    (h : x.run.Along ok Q past) (hok : ∀ a past, Q (.ok a) past → (f a).run.Along ok R past)
    (herror : ∀ e past, Q (.error e) past → R (.error e) past) : (x >>= f).run.Along ok R past :=
  h.bind fun
    | .ok a => hok a
    | .error e => herror e

/-- An operation that cannot fail is the same operation in a program that can. -/
theorem Along.lifted (h : (p >>= fun a => (f a).run).Along ok R past) :
    ((liftM p : ExceptT ε (Prog Val) A) >>= f).run.Along ok R past := by
  rw [Prog.run_bind_lift]
  exact h

theorem Forall.along {R : A → Prop} (h : p.Forall may R) :
    p.Along (fun _ => may) (fun a _ => R a) past := by
  induction p generalizing past with
  | ret a => exact h
  | load l k ih | swap l n k ih => exact fun v => ⟨(h v).1, ih v (h v).2⟩
  | store l v k ih => exact ⟨h.1, ih h.2⟩
  | exchange l e n k ih => exact fun b => ⟨(h b).1, ih b (h b).2⟩

theorem Along.forall {R : A → Prop} (h : p.Along ok Q past) (hok : ∀ past a, ok past a → may a)
    (hR : ∀ a past, Q a past → R a) : p.Forall may R := by
  induction p generalizing past with
  | ret a => exact hR a past h
  | load l k ih | swap l n k ih => exact fun v => ⟨hok past _ (h v).1, ih v (h v).2⟩
  | store l v k ih => exact ⟨hok past _ h.1, ih h.2⟩
  | exchange l e n k ih => exact fun b => ⟨hok past _ (h b).1, ih b (h b).2⟩

theorem Along.only (h : p.Along ok Q []) (hok : ∀ past a, ok past a → may a) : p.Only may :=
  h.forall hok fun _ _ _ => trivial

/-- A program whose operations are in order after anything, with a fact about the past that its
operations keep. -/
theorem Along.of_forall {R : A → Prop} {P : List (Action Val) → Prop} (h : p.Forall may R)
    (hok : ∀ past a, P past → may a → ok past a ∧ P (a :: past)) (hP : P past) :
    p.Along ok (fun a past => R a ∧ P past) past :=
  h.along.imp hok
    (fun _ _ hP hR => ⟨hR, hP⟩) hP

theorem Along.embed_append {Loc' : Type} {Val' : Loc' → Type} {f : Loc → Loc'}
    {ok : List (Action Val') → Action Val' → Prop} {Q : A → List (Action Val') → Prop}
    {p : Prog (fun l => Val' (f l)) A} {past : List (Action Val')}
    {new : List (Action fun l => Val' (f l))}
    (h : p.Along (fun new a => ok (new.map (.embed f) ++ past) (a.embed f))
      (fun r new => Q r (new.map (.embed f) ++ past)) new) :
    (p.embed f).Along ok Q (new.map (.embed f) ++ past) := by
  induction p generalizing new with
  | ret a => exact h
  | load l k ih | swap l n k ih => exact fun v => ⟨(h v).1, ih v (h v).2⟩
  | store l v k ih => exact ⟨h.1, ih h.2⟩
  | exchange l e n k ih => exact fun b => ⟨(h b).1, ih b (h b).2⟩

/-- A program on some of the locations, walked through there. -/
theorem Along.embed {Loc' : Type} {Val' : Loc' → Type} {f : Loc → Loc'}
    {ok : List (Action Val') → Action Val' → Prop} {Q : A → List (Action Val') → Prop}
    {p : Prog (fun l => Val' (f l)) A} {past : List (Action Val')}
    (h : p.Along (fun new a => ok (new.map (.embed f) ++ past) (a.embed f))
      (fun r new => Q r (new.map (.embed f) ++ past)) []) : (p.embed f).Along ok Q past :=
  Along.embed_append h

theorem Along.step [∀ l, DecidableEq (Val l)] {p p' : Prog Val A} {m : ∀ l, Val l}
    (h : p.Along ok Q past) (hstep : p.step m = some (a, p')) :
    ok past a ∧ p'.Along ok Q (a :: past) := by
  cases p with
  | ret a => cases hstep
  | load l k | exchange l e n k | swap l n k =>
    cases hstep
    exact h _
  | store l v k =>
    cases hstep
    exact h

/-- A whole run of the program: these operations in this order, and this result. -/
inductive Ran : Prog Val A → List (Action Val) → A → Prop
  | ret (a : A) : Ran (.ret a) [] a
  | load {l : Loc} {k : Val l → Prog Val A} {v : Val l} {ops : List (Action Val)} {a : A} :
      Ran (k v) ops a → Ran (.load l k) (.load l v :: ops) a
  | store {l : Loc} {v : Val l} {k : Prog Val A} {ops : List (Action Val)} {a : A} :
      Ran k ops a → Ran (.store l v k) (.store l v :: ops) a
  | exchange {l : Loc} {e n : Val l} {k : Bool → Prog Val A} {b : Bool} {ops : List (Action Val)}
      {a : A} : Ran (k b) ops a → Ran (.exchange l e n k) (.exchange l e n b :: ops) a
  | swap {l : Loc} {n : Val l} {k : Val l → Prog Val A} {v : Val l} {ops : List (Action Val)}
      {a : A} : Ran (k v) ops a → Ran (.swap l n k) (.swap l n v :: ops) a

theorem Ran.forall {R : A → Prop} {a : A} (h : p.Ran ops a) (hp : p.Forall may R) :
    (∀ b ∈ ops, may b) ∧ R a := by
  induction h with
  | ret a => exact ⟨nofun, hp⟩
  | load _ ih | exchange _ ih | swap _ ih =>
    obtain ⟨hrest, hR⟩ := ih (hp _).2
    exact ⟨List.forall_mem_cons.mpr ⟨(hp _).1, hrest⟩, hR⟩
  | store _ ih =>
    obtain ⟨hrest, hR⟩ := ih hp.2
    exact ⟨List.forall_mem_cons.mpr ⟨hp.1, hrest⟩, hR⟩

/-- What holds at the end of every walk holds at the end of a run. -/
theorem Ran.along {a : A} (h : p.Ran ops a) (halong : p.Along ok Q past) :
    Q a (ops.reverse ++ past) := by
  have hcons : ∀ (b : Action Val) (ops past : List (Action Val)),
      (b :: ops).reverse ++ past = ops.reverse ++ b :: past := by simp
  induction h generalizing past with
  | ret a => exact halong
  | load _ ih | exchange _ ih | swap _ ih =>
    rw [hcons]
    exact ih (halong _).2
  | store _ ih =>
    rw [hcons]
    exact ih halong.2

/-- A program whose operations are in order after anything: its end is the end of a run. -/
theorem Along.ran (h : p.Only may) (hok : ∀ past a, may a → ok past a) :
    p.Along ok (fun r past' => ∃ ops, p.Ran ops r ∧ past' = ops.reverse ++ past) past := by
  have hcons : ∀ (b : Action Val) (ops past : List (Action Val)),
      ops.reverse ++ b :: past = (b :: ops).reverse ++ past := by simp
  induction p generalizing past with
  | ret a => exact ⟨[], .ret a, rfl⟩
  | load l k ih =>
    refine fun v => ⟨hok past _ (h v).1, (ih v (h v).2).post ?_⟩
    rintro r _ ⟨ops, hran, rfl⟩
    exact ⟨_, .load hran, hcons _ ops past⟩
  | store l v k ih =>
    refine ⟨hok past _ h.1, (ih h.2).post ?_⟩
    rintro r _ ⟨ops, hran, rfl⟩
    exact ⟨_, .store hran, hcons _ ops past⟩
  | exchange l e n k ih =>
    refine fun b => ⟨hok past _ (h b).1, (ih b (h b).2).post ?_⟩
    rintro r _ ⟨ops, hran, rfl⟩
    exact ⟨_, .exchange hran, hcons _ ops past⟩
  | swap l n k ih =>
    refine fun v => ⟨hok past _ (h v).1, (ih v (h v).2).post ?_⟩
    rintro r _ ⟨ops, hran, rfl⟩
    exact ⟨_, .swap hran, hcons _ ops past⟩

/-! ## Runs of compound programs -/

theorem ran_ret {a b : A} :
    (Prog.ret a : Prog Val A).Ran ops b ↔ ops = [] ∧ b = a := by
  constructor
  · rintro ⟨⟩
    exact ⟨rfl, rfl⟩
  · rintro ⟨rfl, rfl⟩
    exact .ret b

theorem ran_load {l : Loc} {k : Val l → Prog Val A} {a : A} :
    (Prog.load l k).Ran ops a ↔ ∃ v rest, ops = .load l v :: rest ∧ (k v).Ran rest a := by
  constructor
  · rintro ⟨⟩
    exact ⟨_, _, rfl, by assumption⟩
  · rintro ⟨v, rest, rfl, h⟩
    exact .load h

/-- A run of a sequence is a run of the first part and then one of the second. -/
theorem Ran.of_bind {g : A → Prog Val B} {b : B} (h : (p >>= g).Ran ops b) :
    ∃ before after a, p.Ran before a ∧ (g a).Ran after b ∧ ops = before ++ after := by
  induction p generalizing ops with
  | ret a => exact ⟨[], ops, a, .ret a, h, rfl⟩
  | load l k ih =>
    cases h with
    | @load _ _ v ops _ hrest =>
      obtain ⟨before, after, a, hfirst, hsecond, rfl⟩ := ih v hrest
      exact ⟨.load l v :: before, after, a, .load hfirst, hsecond, rfl⟩
  | store l v k ih =>
    cases h with
    | store hrest =>
      obtain ⟨before, after, a, hfirst, hsecond, rfl⟩ := ih hrest
      exact ⟨.store l v :: before, after, a, .store hfirst, hsecond, rfl⟩
  | exchange l e n k ih =>
    cases h with
    | @exchange _ _ _ _ success ops _ hrest =>
      obtain ⟨before, after, a, hfirst, hsecond, rfl⟩ := ih success hrest
      exact ⟨.exchange l e n success :: before, after, a, .exchange hfirst, hsecond, rfl⟩
  | swap l n k ih =>
    cases h with
    | @swap _ _ _ v ops _ hrest =>
      obtain ⟨before, after, a, hfirst, hsecond, rfl⟩ := ih v hrest
      exact ⟨.swap l n v :: before, after, a, .swap hfirst, hsecond, rfl⟩

/-- The same where the first part can end the sequence. -/
theorem Ran.of_run_bind {x : ExceptT ε (Prog Val) A} {r : Except ε B}
    (h : (x >>= f).run.Ran ops r) :
    (∃ before after a, x.run.Ran before (.ok a) ∧ (f a).run.Ran after r ∧ ops = before ++ after) ∨
      ∃ e, x.run.Ran ops (.error e) ∧ r = .error e := by
  obtain ⟨before, after, e | a, hfirst, hsecond, rfl⟩ := Ran.of_bind h
  · obtain ⟨rfl, rfl⟩ := ran_ret.mp hsecond
    rw [List.append_nil]
    exact Or.inr ⟨e, hfirst, rfl⟩
  · exact Or.inl ⟨before, after, a, hfirst, hsecond, rfl⟩

theorem Ran.of_lift_bind {r : Except ε B}
    (h : ((liftM p : ExceptT ε (Prog Val) A) >>= f).run.Ran ops r) :
    ∃ before after a, p.Ran before a ∧ (f a).run.Ran after r ∧ ops = before ++ after := by
  rw [Prog.run_bind_lift] at h
  exact Ran.of_bind h

theorem Ran.of_load_bind {l : Loc} {k : Val l → ExceptT ε (Prog Val) B} {r : Except ε B}
    (h : ((liftM (Atomic.load l) : ExceptT ε (Prog Val) (Val l)) >>= k).run.Ran ops r) :
    ∃ v rest, ops = .load l v :: rest ∧ (k v).run.Ran rest r := ran_load.mp h

theorem Ran.of_embed {Loc' : Type} {Val' : Loc' → Type} {g : Loc → Loc'}
    {q : Prog (fun l => Val' (g l)) A} {ops' : List (Action Val')} {a : A}
    (h : (q.embed g).Ran ops' a) : ∃ own, q.Ran own a ∧ ops' = own.map (.embed g) := by
  induction q generalizing ops' with
  | ret b =>
    obtain ⟨rfl, rfl⟩ := ran_ret.mp h
    exact ⟨[], .ret a, rfl⟩
  | load l k ih =>
    cases h with
    | load hrest =>
      obtain ⟨own, hrun, rfl⟩ := ih _ hrest
      exact ⟨_, .load hrun, rfl⟩
  | store l v k ih =>
    cases h with
    | store hrest =>
      obtain ⟨own, hrun, rfl⟩ := ih hrest
      exact ⟨_, .store hrun, rfl⟩
  | exchange l e n k ih =>
    cases h with
    | exchange hrest =>
      obtain ⟨own, hrun, rfl⟩ := ih _ hrest
      exact ⟨_, .exchange hrun, rfl⟩
  | swap l n k ih =>
    cases h with
    | swap hrest =>
      obtain ⟨own, hrun, rfl⟩ := ih _ hrest
      exact ⟨_, .swap hrun, rfl⟩

end Prog

/-! ## Histories -/

variable {history older : List (Event Val Tid Call Reply)}

/-- The operations of one invocation, newest first. An invocation is known by its number. -/
def own (i : Invocation Val Tid Call) :
    List (Event Val Tid Call Reply) → List (Action Val)
  | [] => []
  | .act j a :: history => if j.number = i.number then a :: own i history else own i history
  | _ :: history => own i history

theorem own_act_self (i : Invocation Val Tid Call) (a : Action Val)
    (history : List (Event Val Tid Call Reply)) :
    own i (.act i a :: history) = a :: own i history := if_pos rfl

theorem own_act_of_ne {i j : Invocation Val Tid Call} (h : j.number ≠ i.number) (a : Action Val)
    (history : List (Event Val Tid Call Reply)) :
    own i (.act j a :: history) = own i history := if_neg h

theorem own_eq_nil (h : ∀ ev ∈ history, ev.invocation.number ≠ i.number) : own i history = [] := by
  induction history with
  | nil => rfl
  | cons ev history ih =>
    have hrest := ih fun ev' hev' => h ev' (List.mem_cons_of_mem _ hev')
    cases ev with
    | act j a => exact (own_act_of_ne (h _ List.mem_cons_self) a history).trans hrest
    | start j => exact hrest
    | ret j r => exact hrest

theorem mem_own (h : .act i a ∈ history) :
    a ∈ own i history := by
  induction history with
  | nil => cases h
  | cons ev history ih =>
    rcases List.mem_cons.mp h with rfl | hold
    · rw [own_act_self]
      exact List.mem_cons_self
    · cases ev with
      | act j b =>
        by_cases hj : j.number = i.number
        · rw [own, if_pos hj]
          exact List.mem_cons_of_mem _ (ih hold)
        · rw [own_act_of_ne hj]
          exact ih hold
      | start j => exact ih hold
      | ret j r => exact ih hold

/-- Invocations with one number are one. -/
def Distinct (history : List (Event Val Tid Call Reply)) : Prop :=
  ∀ ev ∈ history, ∀ ev' ∈ history, ev.invocation.number = ev'.invocation.number →
    ev.invocation = ev'.invocation

/-- An invocation's own operations stand in the history in their order. -/
theorem own_sublist (h : ∀ ev ∈ history, ev.invocation.number = i.number → ev.invocation = i) :
    ((own i history).map (.act i)).Sublist history := by
  induction history with
  | nil => exact .slnil
  | cons ev history ih =>
    have hrest := ih fun ev' hev' => h ev' (List.mem_cons_of_mem _ hev')
    cases ev with
    | act j a =>
      by_cases hj : j.number = i.number
      · obtain rfl : j = i := h _ List.mem_cons_self hj
        rw [own_act_self]
        exact hrest.cons_cons _
      · rw [own_act_of_ne hj]
        exact hrest.cons _
    | start j => exact hrest.cons _
    | ret j r => exact hrest.cons _

/-- Every operation and every reply in the history is in order after its invocation's own past, and
an invocation does nothing before it starts or after it has returned. -/
structure Traced (ok : Call → List (Action Val) → Action Val → Prop)
    (Q : Call → Reply → List (Action Val) → Prop) (history : List (Event Val Tid Call Reply)) :
    Prop where
  distinct : Distinct history
  fresh : ∀ i older, .start i :: older <:+ history →
    ∀ ev ∈ older, ev.invocation.number ≠ i.number
  act : ∀ i a older, .act i a :: older <:+ history → ok i.call (own i older) a
  ret : ∀ i r older, .ret i r :: older <:+ history → Q i.call r (own i older)
  last : ∀ i r older, .ret i r :: older <:+ history → ∀ a, .act i a ∈ history → .act i a ∈ older

section Systems

variable {ok : Call → List (Action Val) → Action Val → Prop}
  {Q : Call → Reply → List (Action Val) → Prop} {ev : Event Val Tid Call Reply}

/-- One more event, in order after its invocation's own past. -/
theorem Traced.cons (h : Traced ok Q history) (hdistinct : Distinct (ev :: history))
    (hstart : ∀ i, ev = .start i → ∀ ev' ∈ history, ev'.invocation.number ≠ i.number)
    (hact : ∀ i a, ev = .act i a → ok i.call (own i history) a ∧ ∀ r, .ret i r ∉ history)
    (hret : ∀ i r, ev = .ret i r → Q i.call r (own i history)) : Traced ok Q (ev :: history) where
  distinct := hdistinct
  fresh i older hsuffix := by
    rcases List.suffix_cons_iff.mp hsuffix with heq | hold
    · obtain ⟨hev, rfl⟩ := List.cons.inj heq
      exact hstart i hev.symm
    · exact h.fresh i older hold
  act i a older hsuffix := by
    rcases List.suffix_cons_iff.mp hsuffix with heq | hold
    · obtain ⟨hev, rfl⟩ := List.cons.inj heq
      exact (hact i a hev.symm).1
    · exact h.act i a older hold
  ret i r older hsuffix := by
    rcases List.suffix_cons_iff.mp hsuffix with heq | hold
    · obtain ⟨hev, rfl⟩ := List.cons.inj heq
      exact hret i r hev.symm
    · exact h.ret i r older hold
  last i r older hsuffix a ha := by
    rcases List.suffix_cons_iff.mp hsuffix with heq | hold
    · obtain ⟨rfl, rfl⟩ := List.cons.inj heq
      exact (List.mem_cons.mp ha).resolve_left nofun
    · rcases List.mem_cons.mp ha with heq | ha
      · exact absurd (hold.subset List.mem_cons_self) ((hact i a heq.symm).2 r)
      · exact h.last i r older hold a ha

/-- The past of an event that an invocation made is later than its start. -/
theorem Traced.after_start (h : Traced ok Q history) {older' : List (Event Val Tid Call Reply)}
    (hstart : .start i :: older <:+ history) (hact : .act i a :: older' <:+ history) :
    older ⊆ older' := by
  rcases List.suffix_or_suffix_of_suffix hact hstart with hbefore | hafter
  · -- An operation among the events before the start.
    rcases List.suffix_cons_iff.mp hbefore with heq | hold
    · cases heq
    · exact absurd rfl (h.fresh i older hstart _ (hold.subset List.mem_cons_self))
  · rcases List.suffix_cons_iff.mp hafter with heq | hold
    · cases heq
    · exact fun ev hev => hold.subset (List.mem_cons_of_mem _ hev)

/-- Some point of the history is right after the event. -/
theorem suffix_of_mem (h : ev ∈ history) : ∃ older, ev :: older <:+ history := by
  obtain ⟨newer, older, rfl⟩ := List.append_of_mem h
  exact ⟨older, newer, rfl⟩

/-- What an invocation had done before an operation of its own stands before that operation. -/
theorem Traced.own_sublist (h : Traced ok Q history) (hev : ev.invocation = i)
    (hsuffix : ev :: older <:+ history) :
    ((own i older).map (.act i)).Sublist older := by
  refine Interleave.own_sublist fun ev' hev' heq => ?_
  rw [← hev] at heq ⊢
  exact h.distinct ev' (hsuffix.subset (List.mem_cons_of_mem _ hev')) ev
    (hsuffix.subset List.mem_cons_self) heq

theorem Traced.mem_of_own (h : Traced ok Q history) (ha : a ∈ own i older)
    (hsuffix : ev :: older <:+ history) (hev : ev.invocation = i) :
    .act i a ∈ older :=
  (h.own_sublist hev hsuffix).subset (List.mem_map_of_mem ha)

/-- What an event that is no operation leaves of the operations in the history. -/
theorem act_mem_of_ne (hev : ∀ i a, ev ≠ .act i a) (h : .act i a ∈ ev :: history) :
    .act i a ∈ history :=
  (List.mem_cons.mp h).resolve_left fun heq => hev i a heq.symm

theorem act_suffix_of_ne (hev : ∀ i a, ev ≠ .act i a) (h : .act i a :: older <:+ ev :: history) :
    .act i a :: older <:+ history :=
  (List.suffix_cons_iff.mp h).resolve_left fun heq => hev i a (List.cons.inj heq).1.symm

theorem ret_not_mem_cons (hev : ∀ i r, ev ≠ .ret i r) (h : ∀ r, .ret i r ∉ history) (r : Reply) :
    .ret i r ∉ ev :: history :=
  fun hr => h r ((List.mem_cons.mp hr).resolve_left fun heq => hev i r heq.symm)

/-- The event belongs to a new invocation, or to one that is already known. -/
theorem Distinct.cons (h : Distinct history)
    (hev : ∀ ev' ∈ history, ev'.invocation.number = ev.invocation.number →
      ev'.invocation = ev.invocation) : Distinct (ev :: history) := by
  intro ev₁ h₁ ev₂ h₂ heq
  rcases List.mem_cons.mp h₁ with rfl | hold₁
  · rcases List.mem_cons.mp h₂ with rfl | hold₂
    · rfl
    · exact (hev ev₂ hold₂ heq.symm).symm
  · rcases List.mem_cons.mp h₂ with rfl | hold₂
    · exact hev ev₁ hold₁ heq
    · exact h ev₁ hold₁ ev₂ hold₂ heq

/-- The invariant: the history is in order, and each running call is in order from here on. -/
structure Tracing (ok : Call → List (Action Val) → Action Val → Prop)
    (Q : Call → Reply → List (Action Val) → Prop) (c : Config Val Tid Call Reply Env) : Prop where
  traced : Traced ok Q c.shared.history
  older : ∀ ev ∈ c.shared.history, ev.invocation.number < c.shared.history.length
  frames : ∀ t i p, c.frames t = some (i, p) →
    i.tid = t ∧ .start i ∈ c.shared.history ∧ (∀ r, .ret i r ∉ c.shared.history) ∧
      p.Along (ok i.call) (Q i.call) (own i c.shared.history)

variable {c c' : Config Val Tid Call Reply Env}

/-- An event of a running call is an event of a known invocation. -/
theorem Tracing.known (h : Tracing ok Q c) (ev : Event Val Tid Call Reply) {t : Tid}
    {p : Prog Val Reply} (hframe : c.frames t = some (i, p)) (hev : ev.invocation = i) :
    Distinct (ev :: c.shared.history) ∧
      ∀ ev' ∈ ev :: c.shared.history, ev'.invocation.number < c.shared.history.length + 1 := by
  obtain ⟨_, hstart, _⟩ := h.frames t i p hframe
  have hnumber : i.number < c.shared.history.length := h.older _ hstart
  refine ⟨h.traced.distinct.cons fun ev' hev' heq => ?_, fun ev' hev' => ?_⟩
  · rw [hev] at heq ⊢
    exact h.traced.distinct ev' hev' (.start i) hstart heq
  · rcases List.mem_cons.mp hev' with rfl | hev'
    · rw [hev]
      exact Nat.lt_succ_of_lt hnumber
    · exact Nat.lt_succ_of_lt (h.older ev' hev')

/-- Running calls of different threads have different numbers. -/
theorem Tracing.number_ne (h : Tracing ok Q c) {t t' : Tid} {i j : Invocation Val Tid Call}
    {p q : Prog Val Reply} (hi : c.frames t = some (i, p)) (hj : c.frames t' = some (j, q))
    (hne : t' ≠ t) : i.number ≠ j.number := by
  intro heq
  obtain ⟨rfl, hstart, _⟩ := h.frames t i p hi
  obtain ⟨rfl, hstart', _⟩ := h.frames t' j q hj
  have hsame : i = j := h.traced.distinct (.start i) hstart (.start j) hstart' heq
  exact hne (congrArg _ hsame.symm)

variable [DecidableEq Loc] [∀ l, DecidableEq (Val l)] [DecidableEq Tid]
  {S : System Val Tid Call Reply Env}

theorem Tracing.step (hcode : ∀ call, (S.code call).Along (ok call) (Q call) [])
    (h : Tracing ok Q c) (hstep : Step S c ev c') : Tracing ok Q c' := by
  cases hstep with
  | @start t call env hidle hstart =>
    have hnew : ∀ ev' ∈ c.shared.history,
        ev'.invocation.number ≠ (c.shared.invoke t call).number :=
      fun ev' hev' => Nat.ne_of_lt (h.older ev' hev')
    refine ⟨h.traced.cons ?_ ?_ nofun nofun, fun ev' hev' => ?_, fun t' i p hframe => ?_⟩
    · exact h.traced.distinct.cons fun ev' hev' heq => absurd heq (hnew ev' hev')
    · rintro _ ⟨⟩
      exact hnew
    · rcases List.mem_cons.mp hev' with rfl | hev'
      · exact Nat.lt_succ_self _
      · exact Nat.lt_succ_of_lt (h.older ev' hev')
    · by_cases ht : t' = t
      · subst ht
        simp only [Function.update_self, Option.some.injEq, Prod.mk.injEq] at hframe
        obtain ⟨rfl, rfl⟩ := hframe
        refine ⟨rfl, List.mem_cons_self, fun r hret => ?_, ?_⟩
        · exact hnew _ ((List.mem_cons.mp hret).resolve_left nofun) rfl
        have hown : own (c.shared.invoke t' call) c.shared.history = [] := own_eq_nil hnew
        exact hown.symm ▸ hcode call
      · simp only [Function.update_of_ne ht] at hframe
        obtain ⟨htid, hmem, hret, halong⟩ := h.frames t' i p hframe
        exact ⟨htid, List.mem_cons_of_mem _ hmem, ret_not_mem_cons nofun hret, halong⟩
  | @act t i p p' a hframe hstep =>
    obtain ⟨htid, hmem, hret, halong⟩ := h.frames t i p hframe
    obtain ⟨hok, hrest⟩ := halong.step hstep
    obtain ⟨hdistinct, holder⟩ := h.known (.act i a) hframe rfl
    refine ⟨h.traced.cons hdistinct nofun ?_ nofun, holder, fun t' j q hframe' => ?_⟩
    · rintro _ _ ⟨rfl, rfl⟩
      exact ⟨hok, hret⟩
    · by_cases ht : t' = t
      · subst ht
        simp only [Function.update_self, Option.some.injEq, Prod.mk.injEq] at hframe'
        obtain ⟨rfl, rfl⟩ := hframe'
        refine ⟨htid, List.mem_cons_of_mem _ hmem, ret_not_mem_cons nofun hret, ?_⟩
        show Prog.Along _ _ _ (own i (.act i a :: c.shared.history))
        rw [own_act_self]
        exact hrest
      · simp only [Function.update_of_ne ht] at hframe'
        obtain ⟨htid', hmem', hret', halong'⟩ := h.frames t' j q hframe'
        refine ⟨htid', List.mem_cons_of_mem _ hmem', ret_not_mem_cons nofun hret', ?_⟩
        show Prog.Along _ _ _ (own j (.act i a :: c.shared.history))
        rw [own_act_of_ne (h.number_ne hframe hframe' ht)]
        exact halong'
  | @ret t i r hframe =>
    obtain ⟨htid, hmem, -, halong⟩ := h.frames t i (.ret r) hframe
    obtain ⟨hdistinct, holder⟩ := h.known (.ret i r) hframe rfl
    refine ⟨h.traced.cons hdistinct nofun nofun ?_, holder, fun t' j q hframe' => ?_⟩
    · rintro _ _ ⟨rfl, rfl⟩
      exact halong
    · by_cases ht : t' = t
      · subst ht
        simp only [Function.update_self] at hframe'
        cases hframe'
      · simp only [Function.update_of_ne ht] at hframe'
        obtain ⟨htid', hmem', hret', halong'⟩ := h.frames t' j q hframe'
        refine ⟨htid', List.mem_cons_of_mem _ hmem', fun r' hmem => ?_, halong'⟩
        rcases List.mem_cons.mp hmem with heq | hold
        · cases heq
          exact h.number_ne hframe hframe' ht rfl
        · exact hret' r' hold

/-- In every interleaving, each invocation's operations are a run of its code. -/
theorem traced (hcode : ∀ call, (S.code call).Along (ok call) (Q call) []) {m : ∀ l, Val l}
    {env : Env} (hreach : Reach S ⟨m, env, []⟩ c) : Traced ok Q c.shared.history := by
  have htracing : Tracing ok Q c := by
    induction hreach with
    | refl => exact ⟨⟨nofun, by simp, by simp, by simp, by simp⟩, nofun, nofun⟩
    | tail _ hstep ih =>
      obtain ⟨ev, hstep⟩ := hstep
      exact ih.step hcode hstep
  exact htracing.traced

end Systems

end Interleave
