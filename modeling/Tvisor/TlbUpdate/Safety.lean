/-
# Tvisor.TlbUpdate.Safety -- acknowledgements count for their own epoch only

The checks of a method are several loads, and its store comes later: an acknowledgement of one epoch
can land in the middle of another. It does no harm, because a word in the arrays names the epoch it
acknowledges. What has to be shown is that the words are compared with the right epoch and the right
set, although both are loaded again for each CPU.

One coordinator changes the epoch, the members and the phase, apart from failures. While it is
inside a call the others leave these cells alone, so what it has loaded stays true. The other
methods can only rely on the epoch not going back; that is enough for `synchronized` and
`reusable`, because an epoch is left behind only when it is done.
-/
import Mathlib.Data.Nat.Bitwise
import Tvisor.TlbUpdate.Epochs
import Tvisor.TlbUpdate.Reads

namespace Tvisor.TlbUpdate

open Interleave

variable {Tid : Type} {A : Type} {σ σ' : State Tid} {e expected new : Nat} {previous : Phase}

/-! ## What every step guarantees -/

variable {t : Tid}

/-- The epoch has one set, and every CPU in it has acknowledged. -/
def EveryMember (history : History Tid) (e : Nat) (Acked : Nat → Prop) : Prop :=
  ∃ members, (∀ members', Began history e members' ↔ members' = members) ∧
    ∀ id, isMember members id → Acked id

structure Warranted (σ : State Tid) (ev : Event (fun _ : Cell => Nat) Tid Call Reply)
    (σ' : State Tid) : Prop where
  /-- Only the current epoch moves to `Replacing`, when all of its set is quiet. -/
  replacing : phaseOf σ.mem ≠ .replacing → phaseOf σ'.mem = .replacing →
    (∃ i : Cpu Tid, ev = .act i (.exchange .phase 1 2 true) ∧
      i.call = .startReplace (σ.mem .epoch)) ∧
    EveryMember σ.history (σ.mem .epoch) fun id => QuietStored σ.history id (σ.mem .epoch)
  /-- Only the current epoch is published. -/
  synchronizing : phaseOf σ.mem ≠ .synchronizing → phaseOf σ'.mem = .synchronizing →
    ∃ i : Cpu Tid, ev = .act i (.exchange .phase 2 3 true) ∧ i.call = .publish (σ.mem .epoch)
  /-- An epoch is complete when all of its set has synchronized after its publication. -/
  complete : phaseOf σ.mem ≠ .complete → phaseOf σ'.mem = .complete →
    EveryMember σ.history (σ.mem .epoch) fun id => SyncedAfterPublish σ.history id (σ.mem .epoch)
  mayWrite : ∀ i e, ev = .ret i (.flag true) → i.call = .mayWrite e →
    Replaced σ.history e ∧ ¬ Published σ.history e
  reusable : ∀ i e, ev = .ret i (.flag true) → i.call = .reusable e →
    EveryMember σ.history e fun id => SyncedAfterPublish σ.history id e

/-- What a CPU inside a call may rely on. -/
structure Later (t : Tid) (σ σ' : State Tid) : Prop where
  suffix : σ.history <:+ σ'.history
  epoch : σ.mem .epoch ≤ σ'.mem .epoch
  held : σ.env = some t → σ'.env = some t ∧ Calm σ σ'

theorem Later.refl (t : Tid) (σ : State Tid) : Later t σ σ :=
  ⟨List.suffix_refl _, Nat.le_refl _, fun henv => ⟨henv, .refl σ⟩⟩

theorem Later.trans {σ σ' σ'' : State Tid} (h : Later t σ σ') (h' : Later t σ' σ'') :
    Later t σ σ'' where
  suffix := h.suffix.trans h'.suffix
  epoch := h.epoch.trans h'.epoch
  held henv := by
    obtain ⟨henv', hcalm⟩ := h.held henv
    obtain ⟨henv'', hcalm'⟩ := h'.held henv'
    exact ⟨henv'', hcalm.trans hcalm'⟩

theorem Later.of_calm (hcalm : Calm σ σ') (henv : σ.env = some t → σ'.env = some t) :
    Later t σ σ' :=
  ⟨hcalm.suffix, hcalm.epoch.ge, fun h => ⟨henv h, hcalm⟩⟩

def safetyOutline (Tid : Type) : Outline (fun _ : Cell => Nat) Tid Call Reply (Option Tid) where
  Inv := Consistent
  Guar := Warranted
  Rely := Later
  rely_refl := Later.refl
  rely_trans _ _ _ _ _ h h' := h.trans h'

section Steps

variable {i : Cpu Tid} {a : Action fun _ : Cell => Nat}
  {ev : Event (fun _ : Cell => Nat) Tid Call Reply}

theorem Warranted.of_calm (hcalm : Calm σ σ') (hev : ∀ i r, ev ≠ .ret i r) : Warranted σ ev σ' where
  replacing hne hphase := absurd (hcalm.phase_eq hphase nofun) hne
  synchronizing hne hphase := absurd (hcalm.phase_eq hphase nofun) hne
  complete hne hphase := absurd (hcalm.phase_eq hphase nofun) hne
  mayWrite i _ hret := absurd hret (hev i _)
  reusable i _ hret := absurd hret (hev i _)

/-- A calm operation is good where the acknowledgement that it may store has been made. -/
theorem does_calm (h : Consistent σ) (hcalm : Calm σ (σ.acted i a))
    (hacks : AcksMade σ (σ.acted i a)) : (safetyOutline Tid).Does i σ a where
  inv := h.calm hcalm hacks fun henv => (h.settled henv).calm hcalm
  guar := .of_calm hcalm nofun
  rely _ _ := .of_calm hcalm id

/-- An operation of the coordinator. -/
theorem does_held (henv : σ.env = some i.tid) (hinv : Consistent (σ.acted i a))
    (hguar : Warranted σ (.act i a) (σ.acted i a))
    (hepoch : σ.mem .epoch ≤ (σ.acted i a).mem .epoch) : (safetyOutline Tid).Does i σ a where
  inv := hinv
  guar := hguar
  rely t hne := by
    refine ⟨List.suffix_cons _ _, hepoch, fun henv' => ?_⟩
    rw [henv] at henv'
    exact absurd (Option.some.inj henv').symm hne

theorem safetyOutline_silent : (safetyOutline Tid).Silent := by
  intro i σ a hread hinv
  have hcalm : Calm σ (σ.acted i a) := .of_read hread
  have hmem : (σ.acted i a).mem = σ.mem := hread.apply_eq σ.mem
  refine ⟨does_calm hinv hcalm ⟨fun id => Or.inl ?_, fun id => Or.inl ?_⟩, .of_calm hcalm id⟩
  · rw [hmem]
  · rw [hmem]

/-- Operations that any call may make at any time. -/
inductive Harmless : Action (fun _ : Cell => Nat) → Prop
  | read {a : Action fun _ : Cell => Nat} (h : a.IsRead) : Harmless a
  | gate {a : Action fun _ : Cell => Nat} (h : a.loc = .gate) : Harmless a
  | requested {a : Action fun _ : Cell => Nat} (id : Nat) (h : a.loc = .requested id) : Harmless a
  | fail : Harmless (.store .phase Phase.failed.toWord)

theorem Harmless.calm (h : Harmless a) : Calm σ (σ.acted i a) := by
  cases h with
  | read h => exact .of_read h
  | gate h | requested _ h => exact .of_loc (by rw [h]; nofun) (by rw [h]; nofun) (by rw [h]; nofun)
  | fail => exact .of_fail

theorem Harmless.later (h : Harmless a) (σ : State Tid) (i : Cpu Tid) :
    Later i.tid σ (σ.acted i a) :=
  .of_calm h.calm fun henv => henv

theorem Harmless.does (h : Harmless a) (hinv : Consistent σ) : (safetyOutline Tid).Does i σ a := by
  -- None of them stores an acknowledgement.
  have hacks : ∀ c : Cell, (∃ id, c = .quiet id ∨ c = .synced id) →
      (σ.acted i a).mem c = σ.mem c := by
    rintro c ⟨id, hc⟩
    cases h with
    | read h => exact congrFun (h.apply_eq σ.mem) c
    | gate h | requested _ h =>
      refine σ.acted_mem_of_ne i ?_
      rw [h]
      rcases hc with rfl | rfl <;> nofun
    | fail =>
      refine σ.acted_mem_of_ne i ?_
      rcases hc with rfl | rfl <;> nofun
  exact does_calm hinv h.calm ⟨fun id => Or.inl (hacks _ ⟨id, Or.inl rfl⟩),
    fun id => Or.inl (hacks _ ⟨id, Or.inr rfl⟩)⟩

/-- The coordinator moves the phase. -/
theorem Consistent.exchange_phase (h : Consistent σ) (henv : σ.env ≠ none) {p : Phase}
    (hnew : Phase.ofWord new = p)
    (hactive : p.IsActive → Began σ.history (σ.mem .epoch) (σ.mem .members))
    (hunpublished : p = .quiescing ∨ p = .replacing →
      ¬ Published (.act i (.exchange .phase expected new true) :: σ.history) (σ.mem .epoch))
    (hreplacing : p = .replacing →
      Replaced (.act i (.exchange .phase expected new true) :: σ.history) (σ.mem .epoch))
    (hsynchronizing : p = .synchronizing →
      Published (.act i (.exchange .phase expected new true) :: σ.history) (σ.mem .epoch))
    (hpublished : ∀ e, Published (.act i (.exchange .phase expected new true) :: σ.history) e →
      e ≤ σ.mem .epoch) :
    Consistent (σ.acted i (.exchange .phase expected new true)) := by
  subst hnew
  exact h.same_epoch (List.suffix_cons _ _) rfl rfl (fun e members hb => hb.of_cons (by simp))
    ⟨fun _ => Or.inl rfl, fun _ => Or.inl rfl⟩ hpublished hactive hunpublished hreplacing
    hsynchronizing fun hnone => absurd hnone henv

end Steps

/-! ## The checks -/

section Checks

variable {σ₀ : State Tid} {i : Cpu Tid}

theorem phase_safe {f : Phase → Ops A} {Q : A → State Tid → Prop}
    (h : ∀ σ', Consistent σ' → Later i.tid σ σ' →
      (safetyOutline Tid).Safe i Q (f (phaseOf σ'.mem)) σ') :
    (safetyOutline Tid).Safe i Q (phase >>= f) σ :=
  .read (f := fun w => f (.ofWord w)) safetyOutline_silent h

/-- A check that has passed: the states in which its last three loads took place. -/
def Passed (i : Cpu Tid) (e : Nat) (expected : Phase) (σ₀ σ : State Tid) : Prop :=
  e ≠ 0 ∧ ∃ σ₁ σ₂ σ₃, Consistent σ₂ ∧ Later i.tid σ₀ σ₁ ∧ σ₁.mem .epoch = e ∧
    Later i.tid σ₁ σ₂ ∧ phaseOf σ₂.mem = expected ∧
    Later i.tid (σ₂.acted i (.load .phase (σ₂.mem .phase))) σ₃ ∧
    Later i.tid (σ₃.acted i (.load .gate 1)) σ

theorem check_safe (id e : Nat) (expected : Phase) :
    (safetyOutline Tid).Safe i
      (fun r σ => Later i.tid σ₀ σ ∧ (r = .ok () → Passed i e expected σ₀ σ))
      (check id e expected).run σ₀ := by
  have hloaded : ∀ (σ : State Tid) c v, Later i.tid σ (σ.acted i (.load c v)) :=
    fun σ c v => .of_calm (.of_read trivial) fun henv => henv
  refine .lifted (phase_safe fun σ _ hσ => ?_)
  split
  · exact fun σ' _ hσ' => ⟨hσ.trans hσ', nofun⟩
  split
  · exact fun σ' _ hσ' => ⟨hσ.trans hσ', nofun⟩
  refine .lifted (.read safetyOutline_silent fun σ' _ hσ' => ?_)
  replace hσ := hσ.trans hσ'
  split
  · exact fun σ' _ hσ' => ⟨hσ.trans hσ', nofun⟩
  split
  · exact fun σ' _ hσ' => ⟨hσ.trans hσ', nofun⟩
  rename_i hpos
  refine .lifted (.read safetyOutline_silent fun σ₁ _ hσ₁ => ?_)
  replace hσ₁ := hσ.trans hσ₁
  split
  · exact fun σ' _ hσ' => ⟨hσ₁.trans hσ', nofun⟩
  rename_i hepoch
  refine .lifted (.load safetyOutline_silent fun σ₂ hinv₂ hσ₂ => ?_)
  have hphase := hloaded σ₂ .phase (σ₂.mem .phase)
  show (safetyOutline Tid).Safe i _ (ExceptT.run (if phaseOf σ₂.mem ≠ expected then _ else _)) _
  split
  · exact fun σ' _ hσ' => ⟨((hσ₁.trans hσ₂).trans hphase).trans hσ', nofun⟩
  rename_i hexpected
  refine .lifted (.load safetyOutline_silent fun σ₃ hinv₃ hσ₃ => ?_)
  have hgate := hloaded σ₃ .gate (σ₃.mem .gate)
  have hall := (((hσ₁.trans hσ₂).trans hphase).trans hσ₃).trans hgate
  split
  · exact fun σ' _ hσ' => ⟨hall.trans hσ', nofun⟩
  rename_i hone
  refine fun σ' _ hσ' => ⟨hall.trans hσ', fun _ => ?_⟩
  rw [not_not] at hepoch hexpected hone
  rw [hone] at hσ'
  exact ⟨hpos, σ₁, σ₂, σ₃, hinv₂, hσ₁, hepoch, hσ₂, hexpected, hσ₃, hσ'⟩

/-- What the coordinator learns: the epoch and the phase, which nobody else changes. -/
theorem Passed.held {expected : Phase} (h : Passed i e expected σ₀ σ) (henv : σ₀.env = some i.tid)
    (hne : expected ≠ .failed) : σ₀.mem .epoch = e ∧ phaseOf σ₀.mem = expected := by
  obtain ⟨_, σ₁, σ₂, _, _, hσ₁, hepoch, hσ₂, hphase, _⟩ := h
  refine ⟨(hσ₁.held henv).2.epoch.symm.trans hepoch, ?_⟩
  exact ((hσ₁.trans hσ₂).held henv).2.phase_eq hphase hne

/-- What any CPU learns: the phase was loaded after the epoch, so it was the phase of this epoch or
of a later one. -/
theorem Passed.after_publish (h : Passed i e .synchronizing σ₀ σ) :
    PassedAfterPublish σ.history i e := by
  obtain ⟨hpos, σ₁, σ₂, σ₃, hinv₂, _, hepoch, hσ₂, hphase, hσ₃, hσ⟩ := h
  have hle : e ≤ σ₂.mem .epoch := hepoch ▸ hσ₂.epoch
  obtain ⟨j, hcall, hmem⟩ := hinv₂.published_of_le (Nat.pos_of_ne_zero hpos) hle hphase
  have hword : σ₂.mem .phase = 3 := (Phase.ofWord_eq_iff (p := .synchronizing) nofun).mp hphase
  rw [hword] at hσ₃
  have hfirst := (List.singleton_sublist.mpr hmem).cons_cons (.act i (.load .phase 3))
  have hsecond := (hfirst.trans hσ₃.suffix.sublist).cons_cons (.act i (.load .gate 1))
  exact ⟨j, hcall, hsecond.trans hσ.suffix.sublist⟩

/-- Every CPU is looked at once: the members are loaded in one state, the acknowledgement in a later
one and the epoch after that. -/
theorem all_safe (acks : Nat → Cell) {F : Nat → State Tid → Prop} (hinv₀ : Consistent σ₀)
    (hF : ∀ id σ σ', Later i.tid σ σ' → F id σ → F id σ')
    (hout : ∀ id σ, Consistent σ → Later i.tid σ₀ σ → ¬ isMember (σ.mem .members) id → F id σ)
    (hin : ∀ id σ₁ σ₂, Consistent σ₁ → Consistent σ₂ → Later i.tid σ₀ σ₁ → Later i.tid σ₁ σ₂ →
      σ₁.mem (acks id) = σ₂.mem .epoch → F id σ₂) :
    (safetyOutline Tid).Safe i
      (fun b σ => Later i.tid σ₀ σ ∧ (b = true → ∀ id ∈ List.range maxCpus, F id σ))
      (all acks) σ₀ := by
  refine .allM (fun id σ σ' _ _ hσ' => hF id σ σ' hσ') hinv₀ fun id _ σ hinv hσ => ?_
  refine .read safetyOutline_silent fun σ₁ hinv₁ hσ₁ => ?_
  split
  · rename_i hnot
    refine fun σ' _ hσ' => ⟨hσ₁.trans hσ', fun _ => hF id σ₁ σ' hσ' ?_⟩
    exact hout id σ₁ hinv₁ (hσ.trans hσ₁) hnot
  refine .read safetyOutline_silent fun σ₂ hinv₂ hσ₂ => ?_
  refine .read safetyOutline_silent fun σ₃ hinv₃ hσ₃ => ?_
  refine fun σ' _ hσ' => ⟨((hσ₁.trans hσ₂).trans hσ₃).trans hσ', fun hb => hF id σ₃ σ' hσ' ?_⟩
  exact hin id σ₂ σ₃ hinv₂ hinv₃ ((hσ.trans hσ₁).trans hσ₂) hσ₃ (beq_iff_eq.mp hb)

end Checks

/-! ## Sets of CPUs -/

variable {members id : Nat}

theorem lt_of_isMember (hbound : members >>> maxCpus = 0) (hmember : isMember members id) :
    id < maxCpus := by
  by_contra hge
  refine hmember ?_
  have hlt : members < 2 ^ id := by
    rw [Nat.shiftRight_eq_div_pow] at hbound
    have hlt := Nat.lt_of_div_eq_zero (Nat.two_pow_pos maxCpus) hbound
    exact hlt.trans_le (Nat.pow_le_pow_right (by decide) (not_lt.mp hge))
  rw [Nat.one_shiftLeft, Nat.and_two_pow, Nat.testBit_lt_two_pow hlt]
  exact Nat.zero_mul _

section Members

variable {Acked : Nat → Prop}

/-- The set of an epoch, from any way of knowing it. -/
theorem Consistent.everyMember (h : Consistent σ) (hbegan : Began σ.history e members)
    (hall : ∀ id, isMember members id → Acked id) :
    EveryMember σ.history e Acked :=
  ⟨members, fun _ => ⟨fun hb => h.unique e _ _ hb hbegan, fun heq => heq ▸ hbegan⟩, hall⟩

/-- Acknowledgements that were found for one CPU after the other, each with a set of the epoch. -/
theorem Consistent.acked_of_range (h : Consistent σ) (hbegan : Began σ.history e members)
    (hall : ∀ id ∈ List.range maxCpus, isMember members id → Acked id) :
    ∀ id, isMember members id → Acked id := by
  intro id hid
  have hlt := lt_of_isMember (h.began e members hbegan).2.2 hid
  exact hall id (List.mem_range.mpr hlt) hid

end Members

/-! ## The methods of any CPU -/

section Methods

variable {σ₀ : State Tid} {i : Cpu Tid}

theorem store_quiet_does (hcall : i.call = .quiesce id e) (hinv : Consistent σ) :
    (safetyOutline Tid).Does i σ (.store (.quiet id) e) := by
  refine does_calm hinv (.of_loc nofun nofun nofun) ⟨fun id' => ?_, fun id' => Or.inl ?_⟩
  · by_cases hid : id' = id
    · subst hid
      rw [σ.acted_store_self i]
      exact Or.inr ⟨i, hcall, List.mem_cons_self⟩
    · refine Or.inl (σ.acted_mem_of_ne i ?_)
      rintro ⟨⟩
      exact hid rfl
  · exact σ.acted_mem_of_ne i nofun

theorem store_synced_does (hcall : i.call = .synchronized id e) (hinv : Consistent σ)
    (hpassed : PassedAfterPublish σ.history i e) :
    (safetyOutline Tid).Does i σ (.store (.synced id) e) := by
  refine does_calm hinv (.of_loc nofun nofun nofun) ⟨fun id' => Or.inl ?_, fun id' => ?_⟩
  · exact σ.acted_mem_of_ne i nofun
  · by_cases hid : id' = id
    · subst hid
      obtain ⟨j, hj, hsub⟩ := hpassed
      rw [σ.acted_store_self i]
      exact Or.inr ⟨i, j, hcall, hj, hsub.cons_cons _⟩
    · refine Or.inl (σ.acted_mem_of_ne i ?_)
      rintro ⟨⟩
      exact hid rfl

/-- `quiesce` needs no check for its store to be of its own epoch. -/
theorem quiesce_safe (hcall : i.call = .quiesce id e) (hinv₀ : Consistent σ₀) :
    (safetyOutline Tid).Safe i (fun _ _ => True) (quiesce id e).run σ₀ := by
  have hrest : ∀ (b : Bool) σ, (safetyOutline Tid).Safe i (fun _ _ => True)
      (if b then throw Error.epoch else liftM (store (.quiet id) e) : Result Unit).run σ := by
    intro b σ
    split
    · exact fun _ _ _ => trivial
    · exact .store fun σ' hinv' _ => ⟨store_quiet_does hcall hinv', fun _ _ _ => trivial⟩
  refine .run_bind hinv₀ (check_safe id e .quiescing) (fun _ σ _ _ => .lifted ?_)
    fun _ _ _ _ _ _ _ => trivial
  unfold unrequested
  split
  · exact hrest false σ
  · exact .read safetyOutline_silent fun σ' _ _ => hrest _ σ'

theorem synchronized_safe (hcall : i.call = .synchronized id e) (hinv₀ : Consistent σ₀) :
    (safetyOutline Tid).Safe i (fun _ _ => True) (synchronized id e).run σ₀ := by
  refine .run_bind hinv₀ (check_safe id e .synchronizing) (fun _ σ _ hpassed => ?_)
    fun _ _ _ _ _ _ _ => trivial
  refine .store fun σ' hinv' hσ' => ⟨store_synced_does hcall hinv' ?_, fun _ _ _ => trivial⟩
  exact (hpassed.2 rfl).after_publish.mono hσ'.suffix

/-- If `reusable` answers yes, each CPU was found without a part in the epoch or synchronized for
it. The set may have changed in between, but then the epoch was done. -/
theorem reusable_safe :
    (safetyOutline Tid).Safe i (fun b σ => b = true → Done σ.history e) (reusable e) σ₀ := by
  unfold reusable
  split
  · exact fun _ _ _ => nofun
  rename_i hpos
  refine .read safetyOutline_silent fun σ₁ hinv₁ _ => ?_
  split
  · exact fun _ _ _ => nofun
  rename_i hepoch
  refine phase_safe fun σ₂ hinv₂ hσ₂ => ?_
  split
  · exact fun _ _ _ => nofun
  have hle : e ≤ σ₂.mem .epoch := (not_not.mp hepoch).symm ▸ hσ₂.epoch
  have hpos' := Nat.pos_of_ne_zero hpos
  let F : Nat → State Tid → Prop := fun id σ =>
    ∃ members, Began σ.history e members ∧
      (isMember members id → SyncedAfterPublish σ.history id e)
  have hdone : ∀ id σ, Done σ.history e → F id σ := by
    rintro id σ ⟨members, hbegan, hall⟩
    exact ⟨members, hbegan, hall id⟩
  have hall := all_safe (i := i) .synced (F := F) hinv₂ ?_ ?_ ?_
  · refine hall.post fun b σ hinv hb hyes => ?_
    obtain ⟨members, hbegan, _⟩ := hb.2 hyes 0 (by decide)
    refine ⟨members, hbegan, hinv.acked_of_range hbegan fun id hid => ?_⟩
    obtain ⟨members', hbegan', hsynced⟩ := hb.2 hyes id hid
    rw [hinv.unique e members members' hbegan hbegan']
    exact hsynced
  · rintro id σ σ' hσ' ⟨members, hbegan, hsynced⟩
    exact ⟨members, hbegan.mono hσ'.suffix, fun hid => (hsynced hid).mono hσ'.suffix⟩
  · intro id σ hinv hσ hnot
    rcases hinv.began_of_le hpos' (hle.trans hσ.epoch) with hd | ⟨hbegan, _⟩
    · exact hdone id σ hd
    · exact ⟨_, hbegan, fun hid => absurd hid hnot⟩
  · intro id σ₃ σ₄ hinv₃ hinv₄ hσ₃ hσ₄ hword
    rcases hinv₄.began_of_le hpos' ((hle.trans hσ₃.epoch).trans hσ₄.epoch) with hd | ⟨hbegan, heq⟩
    · exact hdone id σ₄ hd
    · rw [heq] at hword
      have hsynced := hinv₃.synced id (hword ▸ hpos)
      rw [hword] at hsynced
      exact ⟨_, hbegan, fun _ => hsynced.mono hσ₄.suffix⟩

end Methods

/-! ## The methods of the coordinator -/

/-- The coordinator's call is this CPU's, and nothing is left to settle. -/
structure Ready (t : Tid) (σ : State Tid) : Prop where
  held : σ.env = some t
  settled : Settled σ

theorem Ready.later (h : Ready t σ) (hσ' : Later t σ σ') :
    Ready t σ' := by
  obtain ⟨henv, hcalm⟩ := hσ'.held h.held
  exact ⟨henv, h.settled.calm hcalm⟩

/-- What the coordinator does leaves it ready. -/
abbrev StaysReady (i : Cpu Tid) : Ops A → State Tid → Prop :=
  (safetyOutline Tid).Safe i fun _ => Ready i.tid

section Coordinator

variable {σ₀ : State Tid} {i : Cpu Tid}

theorem all_held (acks : Nat → Cell) (Acked : History Tid → Nat → Nat → Prop)
    (hmono : ∀ g h id e, Acked g id e → g <:+ h → Acked h id e)
    (hacks : ∀ σ id, Consistent σ → σ.mem (acks id) ≠ 0 →
      Acked σ.history id (σ.mem (acks id)))
    (hinv₀ : Consistent σ₀) (henv : σ₀.env = some i.tid) (hpos : σ₀.mem .epoch ≠ 0) :
    (safetyOutline Tid).Safe i
      (fun b σ => Later i.tid σ₀ σ ∧ (b = true → ∀ id ∈ List.range maxCpus,
        isMember (σ₀.mem .members) id → Acked σ.history id (σ₀.mem .epoch)))
      (all acks) σ₀ := by
  refine all_safe acks hinv₀ ?_ ?_ ?_
  · exact fun id σ σ' hσ' hacked hid => hmono _ _ _ _ (hacked hid) hσ'.suffix
  · intro id σ _ hσ hnot hid
    rw [(hσ.held henv).2.members] at hnot
    exact absurd hid hnot
  · intro id σ₁ σ₂ hinv₁ _ hσ₁ hσ₂ hword _
    rw [((hσ₁.trans hσ₂).held henv).2.epoch] at hword
    have hacked := hacks σ₁ id hinv₁ (hword ▸ hpos)
    rw [hword] at hacked
    exact hmono _ _ _ _ hacked hσ₂.suffix

/-- The coordinator's next phase, with what it owes for each. -/
theorem exchange_does (henv : σ.env = some i.tid)
    (hinv : Consistent (σ.acted i (.exchange .phase expected new true)))
    (hreplacing : Phase.ofWord new = .replacing → expected = 1 ∧ new = 2 ∧
      i.call = .startReplace (σ.mem .epoch) ∧
      EveryMember σ.history (σ.mem .epoch) fun id => QuietStored σ.history id (σ.mem .epoch))
    (hsynchronizing : Phase.ofWord new = .synchronizing → expected = 2 ∧ new = 3 ∧
      i.call = .publish (σ.mem .epoch))
    (hcomplete : Phase.ofWord new = .complete →
      EveryMember σ.history (σ.mem .epoch)
        fun id => SyncedAfterPublish σ.history id (σ.mem .epoch)) :
    (safetyOutline Tid).Does i σ (.exchange .phase expected new true) := by
  refine does_held henv hinv ?_ (Nat.le_refl _)
  constructor
  case replacing =>
    intro _ hphase
    obtain ⟨rfl, rfl, hcall, hall⟩ := hreplacing hphase
    exact ⟨⟨i, rfl, hcall⟩, hall⟩
  case synchronizing =>
    intro _ hphase
    obtain ⟨rfl, rfl, hcall⟩ := hsynchronizing hphase
    exact ⟨i, rfl, hcall⟩
  case complete => exact fun _ hphase => hcomplete hphase
  case mayWrite => exact nofun
  case reusable => exact nofun

theorem ready_exchange (henv : σ.env = some i.tid) (hcomplete : Phase.ofWord new ≠ .complete)
    (hidle : Phase.ofWord new ≠ .idle) :
    Ready i.tid (σ.acted i (.exchange .phase expected new true)) :=
  ⟨henv, .of_phase hcomplete hidle⟩

/-- All of the set is quiet, and the epoch moves to `Replacing`. -/
theorem replace_does (hinv : Consistent σ) (henv : σ.env = some i.tid)
    (hcall : i.call = .startReplace (σ.mem .epoch)) (hword : σ.mem .phase = 1)
    (hquiet : ∀ id ∈ List.range maxCpus, isMember (σ.mem .members) id →
      QuietStored σ.history id (σ.mem .epoch)) :
    (safetyOutline Tid).Does i σ (.exchange .phase 1 2 true) := by
  have hphase : phaseOf σ.mem = .quiescing := congrArg Phase.ofWord hword
  have hbegan := hinv.active (by rw [hphase]; trivial)
  refine exchange_does henv ?_ (fun _ => ⟨rfl, rfl, hcall, ?_⟩) nofun nofun
  · refine hinv.exchange_phase (by rw [henv]; nofun) rfl (fun _ => hbegan) ?_ ?_ nofun ?_
    · exact fun _ hp => hinv.unpublished (Or.inl hphase) (hp.of_cons nofun)
    · exact fun _ => ⟨i, hcall, List.mem_cons_self⟩
    · exact fun e hp => hinv.published e (hp.of_cons nofun)
  · exact hinv.everyMember hbegan (hinv.acked_of_range hbegan hquiet)

theorem publish_does (hinv : Consistent σ) (henv : σ.env = some i.tid)
    (hcall : i.call = .publish (σ.mem .epoch)) (hword : σ.mem .phase = 2) :
    (safetyOutline Tid).Does i σ (.exchange .phase 2 3 true) := by
  have hphase : phaseOf σ.mem = .replacing := congrArg Phase.ofWord hword
  refine exchange_does henv ?_ nofun (fun _ => ⟨rfl, rfl, hcall⟩) nofun
  refine hinv.exchange_phase (by rw [henv]; nofun) rfl (fun _ => hinv.active ?_) nofun nofun ?_ ?_
  · rw [hphase]
    trivial
  · exact fun _ => ⟨i, hcall, List.mem_cons_self⟩
  · rintro e ⟨j, hj, hmem⟩
    rcases List.mem_cons.mp hmem with heq | hold
    · obtain rfl : j = i := by
        cases heq
        rfl
      have hsame := hj.symm.trans hcall
      cases hsame
      exact Nat.le_refl _
    · exact hinv.published e ⟨j, hj, hold⟩

theorem finish_does (hinv : Consistent σ) (henv : σ.env = some i.tid) (hword : σ.mem .phase = 3)
    (hsynced : ∀ id ∈ List.range maxCpus, isMember (σ.mem .members) id →
      SyncedAfterPublish σ.history id (σ.mem .epoch)) :
    (safetyOutline Tid).Does i σ (.exchange .phase 3 4 true) ∧
      Ready i.tid (σ.acted i (.exchange .phase 3 4 true)) := by
  have hphase : phaseOf σ.mem = .synchronizing := congrArg Phase.ofWord hword
  have hbegan := hinv.active (by rw [hphase]; trivial)
  have hall := hinv.acked_of_range hbegan hsynced
  refine ⟨exchange_does henv ?_ nofun nofun fun _ => hinv.everyMember hbegan hall, henv, ?_, ?_⟩
  · refine hinv.exchange_phase (by rw [henv]; nofun) rfl nofun nofun nofun nofun ?_
    exact fun e hp => hinv.published e (hp.of_cons nofun)
  · intro _
    have hsuffix : σ.history <:+ (σ.acted i (.exchange .phase 3 4 true)).history :=
      List.suffix_cons _ _
    have hdone : Done σ.history (σ.mem .epoch) := ⟨_, hbegan, hall⟩
    exact ⟨hdone.mono hsuffix, (hinv.synchronizing hphase).mono hsuffix⟩
  · nofun

/-- A method of the coordinator begins with a check; when it has passed, the epoch is its own. -/
theorem check_held {f : Unit → Result A} {expected : Phase} (hinv₀ : Consistent σ₀)
    (hready : Ready i.tid σ₀) (hne : expected ≠ .failed)
    (hnext : ∀ σ, Consistent σ → Ready i.tid σ → σ.mem .epoch = e → e ≠ 0 →
      StaysReady i (f ()).run σ) :
    StaysReady i (check 0 e expected >>= f).run σ₀ := by
  refine .run_bind hinv₀ (check_safe 0 e expected) (fun _ σ hinv hpassed => ?_)
    fun _ σ _ h σ' _ hσ' => hready.later (h.1.trans hσ')
  obtain ⟨hepoch, _⟩ := (hpassed.2 rfl).held hready.held hne
  refine hnext σ hinv (hready.later hpassed.1) ?_ (hpassed.2 rfl).1
  exact (hpassed.1.held hready.held).2.epoch.trans hepoch

/-- It ends with a move of the phase, and what follows when the phase has moved. -/
theorem exchange_held {f : Result A} (hready : Ready i.tid σ₀)
    (hdoes : ∀ σ, Consistent σ → Later i.tid σ₀ σ → σ.mem .phase = expected →
      (safetyOutline Tid).Does i σ (.exchange .phase expected new true) ∧
      StaysReady i f.run (σ.acted i (.exchange .phase expected new true))) :
    StaysReady i
      (do if !(← compareExchange .phase expected new) then throw .phase else f : Result A).run σ₀ :=
  .lifted (.exchange safetyOutline_silent hdoes
    fun _ _ hσ _ _ _ hσ' => hready.later (hσ.trans hσ'))

/-- In between, `start_replace` and `finish` look at the acknowledgements of the set, which are
still there when the phase moves. -/
theorem gathered_safe {f : Result A} (acks : Nat → Cell) (Acked : History Tid → Nat → Nat → Prop)
    (hmono : ∀ g h id e, Acked g id e → g <:+ h → Acked h id e)
    (hacks : ∀ σ id, Consistent σ → σ.mem (acks id) ≠ 0 → Acked σ.history id (σ.mem (acks id)))
    (hinv₀ : Consistent σ₀) (hready : Ready i.tid σ₀) (hpos : σ₀.mem .epoch ≠ 0)
    (hdoes : ∀ σ, Consistent σ → Ready i.tid σ → σ.mem .epoch = σ₀.mem .epoch →
      σ.mem .phase = expected →
      (∀ id ∈ List.range maxCpus, isMember (σ.mem .members) id →
        Acked σ.history id (σ.mem .epoch)) →
      (safetyOutline Tid).Does i σ (.exchange .phase expected new true) ∧
      StaysReady i f.run (σ.acted i (.exchange .phase expected new true))) :
    StaysReady i
      (do
        if !(← all acks) then throw .missingAck
        else if !(← compareExchange .phase expected new) then throw .phase
        else f : Result A).run σ₀ := by
  have hall := all_held acks Acked hmono hacks hinv₀ hready.held hpos
  refine .lifted (.bind hinv₀ hall fun b σ₁ hinv₁ hb => ?_)
  split
  · exact fun σ' _ hσ' => hready.later (hb.1.trans hσ')
  rename_i hyes
  have hyes : b = true := by simpa using hyes
  refine exchange_held (hready.later hb.1) fun σ hinv hσ hword => ?_
  obtain ⟨_, hcalm⟩ := (hb.1.trans hσ).held hready.held
  refine hdoes σ hinv (hready.later (hb.1.trans hσ)) hcalm.epoch hword ?_
  rw [hcalm.members, hcalm.epoch]
  exact fun id hid hmember => hmono _ _ _ _ (hb.2 hyes id hid hmember) hσ.suffix

theorem startReplace_safe (hcall : i.call = .startReplace e) (hinv₀ : Consistent σ₀)
    (hready : Ready i.tid σ₀) : StaysReady i (startReplace e).run σ₀ := by
  refine check_held hinv₀ hready nofun fun σ₁ hinv₁ hready₁ hepoch₁ hpos => ?_
  refine gathered_safe .quiet QuietStored (fun _ _ _ _ h hs => h.mono hs) (fun σ id h => h.quiet id)
    hinv₁ hready₁ (hepoch₁ ▸ hpos) fun σ hinv hready hepoch hword hquiet => ?_
  have hreplacing : Ready i.tid (σ.acted i (.exchange .phase 1 2 true)) :=
    ready_exchange hready.held nofun nofun
  refine ⟨replace_does hinv hready.held ?_ hword hquiet, fun σ' _ hσ' => hreplacing.later hσ'⟩
  rw [hcall, hepoch, hepoch₁]

theorem mayWrite_safe (hinv₀ : Consistent σ₀) (hready : Ready i.tid σ₀) :
    (safetyOutline Tid).Safe i (fun b σ => Ready i.tid σ ∧
      (b = true → Replaced σ.history e ∧ ¬ Published σ.history e)) (mayWrite e) σ₀ := by
  refine .bind hinv₀ (check_safe 0 e .replacing) fun r σ₁ hinv₁ hpassed => ?_
  rcases r with _ | _
  · exact fun σ' _ hσ' => ⟨hready.later (hpassed.1.trans hσ'), nofun⟩
  obtain ⟨hepoch, hphase⟩ := (hpassed.2 rfl).held hready.held nofun
  have hreplaced := hinv₀.replacing hphase
  have hunpublished := hinv₀.unpublished (Or.inr hphase)
  rw [hepoch] at hreplaced hunpublished
  -- The acknowledgements are looked at once more; nothing hangs on the answer.
  have hall := all_safe (i := i) .quiet (F := fun _ _ => True) hinv₁
    (fun _ _ _ _ h => h) (fun _ _ _ _ _ => trivial) fun _ _ _ _ _ _ _ _ => trivial
  refine hall.post fun b σ _ hb => ?_
  have hσ := hpassed.1.trans hb.1
  refine ⟨hready.later hσ, fun _ => ⟨hreplaced.mono hσ.suffix, fun hp => ?_⟩⟩
  exact hunpublished ((hσ.held hready.held).2.published e hp)

theorem publish_safe (hcall : i.call = .publish e) (hinv₀ : Consistent σ₀)
    (hready : Ready i.tid σ₀) : StaysReady i (publish e).run σ₀ := by
  refine check_held hinv₀ hready nofun fun σ₁ hinv₁ hready₁ hepoch₁ _ => ?_
  refine exchange_held hready₁ fun σ hinv hσ hword => ?_
  obtain ⟨henv, hcalm⟩ := hσ.held hready₁.held
  have hpublished : Ready i.tid (σ.acted i (.exchange .phase 2 3 true)) :=
    ready_exchange henv nofun nofun
  refine ⟨publish_does hinv henv ?_ hword, fun σ' _ hσ' => hpublished.later hσ'⟩
  rw [hcall, hcalm.epoch, hepoch₁]

theorem finish_safe (hinv₀ : Consistent σ₀) (hready : Ready i.tid σ₀) :
    StaysReady i (finish e).run σ₀ := by
  refine check_held hinv₀ hready nofun fun σ₁ hinv₁ hready₁ hepoch₁ hpos => ?_
  refine gathered_safe .synced SyncedAfterPublish (fun _ _ _ _ h hs => h.mono hs)
    (fun σ id h => h.synced id) hinv₁ hready₁ (hepoch₁ ▸ hpos)
    fun σ hinv hready _ hword hsynced => ?_
  obtain ⟨hdoes, hcomplete⟩ := finish_does hinv hready.held hword hsynced
  -- The gate is opened last, when the epoch is complete.
  have hgate : Harmless (.store .gate 0) := .gate rfl
  refine ⟨hdoes, .store fun σ' hinv' hσ' => ⟨hgate.does hinv', ?_⟩⟩
  have hopen := hcomplete.later (hσ'.trans (hgate.later σ' i))
  exact fun σ'' _ hσ'' => hopen.later hσ''

/-- Inside `begin`, before the new epoch is stored: the epoch is over. -/
structure Opening (t : Tid) (previous : Phase) (e : Nat) (σ : State Tid) : Prop where
  held : σ.env = some t
  epoch : σ.mem .epoch = e
  phase : phaseOf σ.mem = previous ∨ phaseOf σ.mem = .failed
  ended : 0 < e → Done σ.history e ∧ Published σ.history e

/-- After that: the new epoch has its set and has not been published. -/
structure Opened (t : Tid) (previous : Phase) (σ : State Tid) : Prop where
  held : σ.env = some t
  phase : phaseOf σ.mem = previous ∨ phaseOf σ.mem = .failed
  began : Began σ.history (σ.mem .epoch) (σ.mem .members)
  unpublished : ¬ Published σ.history (σ.mem .epoch)

theorem Opening.later (h : Opening t previous e σ) (hσ' : Later t σ σ') :
    Opening t previous e σ' := by
  obtain ⟨henv, hcalm⟩ := hσ'.held h.held
  refine ⟨henv, hcalm.epoch.trans h.epoch, hcalm.phase_or_failed h.phase, fun hpos => ?_⟩
  obtain ⟨hdone, hpublished⟩ := h.ended hpos
  exact ⟨hdone.mono hcalm.suffix, hpublished.mono hcalm.suffix⟩

theorem Opened.later (h : Opened t previous σ) (hσ' : Later t σ σ') :
    Opened t previous σ' := by
  obtain ⟨henv, hcalm⟩ := hσ'.held h.held
  refine ⟨henv, hcalm.phase_or_failed h.phase, ?_, ?_⟩
  · rw [hcalm.epoch, hcalm.members]
    exact h.began.mono hcalm.suffix
  · rw [hcalm.epoch]
    exact fun hp => h.unpublished (hcalm.published _ hp)

theorem Ready.opening (h : Ready i.tid σ) (hphase : phaseOf σ.mem = previous)
    (hprevious : previous = .idle ∨ previous = .complete) :
    Opening i.tid previous (σ.mem .epoch) σ := by
  refine ⟨h.held, rfl, Or.inl hphase, fun hpos => ?_⟩
  rcases hprevious with rfl | rfl
  · exact absurd (h.settled.idle hphase) (Nat.pos_iff_ne_zero.mp hpos)
  · exact h.settled.complete hphase

theorem inactive_of_previous {p previous : Phase} (h : p = previous ∨ p = .failed)
    (hprevious : previous = .idle ∨ previous = .complete) : ¬ p.IsActive := by
  rcases h with rfl | rfl
  · rcases hprevious with rfl | rfl <;> exact id
  · exact id

/-- While no epoch is under way, only the epoch and its sets matter. -/
theorem Consistent.of_inactive (h : Consistent σ)
    (hsuffix : σ.history <:+ σ'.history) (henv : σ'.env ≠ none)
    (hphase : ¬ (phaseOf σ'.mem).IsActive)
    (hquiet : ∀ id, σ'.mem (.quiet id) = σ.mem (.quiet id))
    (hsynced : ∀ id, σ'.mem (.synced id) = σ.mem (.synced id))
    (hbegan : ∀ e members, Began σ'.history e members →
      0 < e ∧ e ≤ σ'.mem .epoch ∧ members >>> maxCpus = 0)
    (hunique : ∀ e members members', Began σ'.history e members → Began σ'.history e members' →
      members = members')
    (hpast : ∀ e, 0 < e → e < σ'.mem .epoch → Done σ'.history e ∧ Published σ'.history e)
    (hcurrent : 0 < σ'.mem .epoch → ∃ members, Began σ'.history (σ'.mem .epoch) members ∧
      (σ'.mem .members = members ∨ Done σ'.history (σ'.mem .epoch)))
    (hpublished : ∀ e, Published σ'.history e → e ≤ σ'.mem .epoch) : Consistent σ' where
  quiet id hne := by
    rw [hquiet id] at hne ⊢
    exact (h.quiet id hne).mono hsuffix
  synced id hne := by
    rw [hsynced id] at hne ⊢
    exact (h.synced id hne).mono hsuffix
  began := hbegan
  unique := hunique
  past := hpast
  current := hcurrent
  published := hpublished
  active hactive := absurd hactive hphase
  unpublished hactive := by
    rcases hactive with heq | heq
    · exact absurd (heq ▸ trivial) hphase
    · exact absurd (heq ▸ trivial) hphase
  replacing heq := absurd (heq ▸ trivial) hphase
  synchronizing heq := absurd (heq ▸ trivial) hphase
  settled hnone := absurd hnone henv

/-- A step of `begin` that moves no phase is warranted: the phase is not one that owes anything. -/
theorem warranted_of_phase {a : Action fun _ : Cell => Nat}
    (hphase : phaseOf σ'.mem = phaseOf σ.mem) : Warranted σ (.act i a) σ' where
  replacing hne h := absurd (hphase.symm.trans h) hne
  synchronizing hne h := absurd (hphase.symm.trans h) hne
  complete hne h := absurd (hphase.symm.trans h) hne
  mayWrite := nofun
  reusable := nofun

theorem store_members_does (hinv : Consistent σ) (h : Opening i.tid previous e σ)
    (hprevious : previous = .idle ∨ previous = .complete) :
    (safetyOutline Tid).Does i σ (.store .members members) ∧
      Opening i.tid previous e (σ.acted i (.store .members members)) := by
  have hsuffix : σ.history <:+ (σ.acted i (.store .members members)).history :=
    List.suffix_cons _ _
  have hbegan : ∀ e' members', Began (σ.acted i (.store .members members)).history e' members' →
      Began σ.history e' members' := fun e' members' hb => hb.of_cons nofun
  refine ⟨does_held h.held ?_ (warranted_of_phase rfl) (Nat.le_refl _), h.held, h.epoch, h.phase,
    fun hpos => ?_⟩
  · refine hinv.of_inactive hsuffix (by rw [Shared.acted, h.held]; nofun)
      (inactive_of_previous h.phase hprevious) (fun _ => rfl) (fun _ => rfl)
      (fun e' members' hb => hinv.began e' members' (hbegan e' members' hb))
      (fun e' _ _ hb hb' => hinv.unique e' _ _ (hbegan e' _ hb) (hbegan e' _ hb'))
      (fun e' hpos hlt => ?_) (fun hpos => ?_) fun e' hp => hinv.published e' (hp.of_cons nofun)
    · obtain ⟨hdone, hpublished⟩ := hinv.past e' hpos hlt
      exact ⟨hdone.mono hsuffix, hpublished.mono hsuffix⟩
    · -- The old epoch loses its set, but it is over.
      obtain ⟨members', hb, _⟩ := hinv.current hpos
      refine ⟨members', hb.mono hsuffix, Or.inr ?_⟩
      exact (h.epoch ▸ (h.ended (h.epoch ▸ hpos)).1 : Done σ.history (σ.mem .epoch)).mono hsuffix
  · obtain ⟨hdone, hpublished⟩ := h.ended hpos
    exact ⟨hdone.mono hsuffix, hpublished.mono hsuffix⟩

theorem store_epoch_does (hinv : Consistent σ) (h : Opening i.tid previous e σ)
    (hprevious : previous = .idle ∨ previous = .complete) (hcall : i.call = .begin members)
    (hmembers : σ.mem .members = members) (hbound : members >>> maxCpus = 0) :
    (safetyOutline Tid).Does i σ (.store .epoch (e + 1)) ∧
      Opened i.tid previous (σ.acted i (.store .epoch (e + 1))) := by
  have hsuffix : σ.history <:+ (σ.acted i (.store .epoch (e + 1))).history := List.suffix_cons _ _
  have hnew : Began (σ.acted i (.store .epoch (e + 1))).history (e + 1) members :=
    ⟨i, hcall, List.mem_cons_self⟩
  -- An epoch that has been begun is the new one with the new set, or is not after the old one.
  have hbegan : ∀ e' members', Began (σ.acted i (.store .epoch (e + 1))).history e' members' →
      (e' = e + 1 ∧ members' = members) ∨ (e' ≤ e ∧ Began σ.history e' members') := by
    rintro e' members' ⟨j, hj, hmem'⟩
    rcases List.mem_cons.mp hmem' with heq | hold
    · cases heq
      have hsame := hj.symm.trans hcall
      cases hsame
      exact Or.inl ⟨rfl, rfl⟩
    · have hb : Began σ.history e' members' := ⟨j, hj, hold⟩
      exact Or.inr ⟨h.epoch ▸ (hinv.began e' members' hb).2.1, hb⟩
  have hpublished : ∀ e', Published (σ.acted i (.store .epoch (e + 1))).history e' → e' ≤ e :=
    fun e' hp => h.epoch ▸ hinv.published e' (hp.of_cons nofun)
  refine ⟨does_held h.held ?_ (warranted_of_phase rfl) (h.epoch.symm ▸ Nat.le_succ e), h.held,
    h.phase, ?_, fun hp => absurd (hpublished _ hp) (Nat.not_succ_le_self e)⟩
  · refine hinv.of_inactive hsuffix (by rw [Shared.acted, h.held]; nofun)
      (inactive_of_previous h.phase hprevious) (fun _ => rfl) (fun _ => rfl) ?_ ?_ ?_
      (fun _ => ⟨members, hnew, Or.inl hmembers⟩) fun e' hp => Nat.le_succ_of_le (hpublished e' hp)
    · intro e' members' hb
      rcases hbegan e' members' hb with ⟨rfl, rfl⟩ | ⟨hle, hold⟩
      · exact ⟨Nat.succ_pos e, Nat.le_refl _, hbound⟩
      · obtain ⟨hpos, _, hbound'⟩ := hinv.began e' members' hold
        exact ⟨hpos, Nat.le_succ_of_le hle, hbound'⟩
    · intro e' members₁ members₂ hb₁ hb₂
      rcases hbegan e' members₁ hb₁ with ⟨rfl, rfl⟩ | ⟨hle, hold₁⟩
      · rcases hbegan _ members₂ hb₂ with ⟨_, rfl⟩ | ⟨hle, _⟩
        · rfl
        · exact absurd hle (Nat.not_succ_le_self e)
      · rcases hbegan e' members₂ hb₂ with ⟨rfl, _⟩ | ⟨_, hold₂⟩
        · exact absurd hle (Nat.not_succ_le_self e)
        · exact hinv.unique e' members₁ members₂ hold₁ hold₂
    · intro e' hpos hlt
      rcases Nat.lt_or_eq_of_le (Nat.le_of_lt_succ hlt) with hlt | rfl
      · obtain ⟨hdone, hpub⟩ := hinv.past e' hpos (h.epoch.symm ▸ hlt)
        exact ⟨hdone.mono hsuffix, hpub.mono hsuffix⟩
      · obtain ⟨hdone, hpub⟩ := h.ended hpos
        exact ⟨hdone.mono hsuffix, hpub.mono hsuffix⟩
  · exact hmembers ▸ hnew

/-- The epoch is under way. -/
theorem begin_does (hinv : Consistent σ) (h : Opened i.tid previous σ) :
    (safetyOutline Tid).Does i σ (.exchange .phase previous.toWord 1 true) := by
  refine exchange_does h.held ?_ nofun nofun nofun
  refine hinv.exchange_phase (by rw [h.held]; nofun) rfl (fun _ => h.began) ?_ nofun nofun ?_
  · exact fun _ hp => h.unpublished (hp.of_cons (by simp))
  · exact fun e hp => hinv.published e (hp.of_cons (by simp))

theorem fail_safe {f : Unit → Result A} (h : Ready i.tid σ)
    (hf : ∀ σ', Ready i.tid σ' → StaysReady i (f ()).run σ') :
    StaysReady i ((liftM fail : Result Unit) >>= f).run σ := by
  refine .lifted (.store fun σ' hinv' hσ' => ⟨Harmless.fail.does hinv', hf _ ?_⟩)
  exact h.later (hσ'.trans (Harmless.fail.later σ' i))

theorem begin_safe (hcall : i.call = .begin members) (hready : Ready i.tid σ₀) :
    StaysReady i (begin members).run σ₀ := by
  have hret : ∀ {r : Except Error Nat} {σ}, Ready i.tid σ → StaysReady i (pure r) σ :=
    fun h σ' _ hσ' => h.later hσ'
  refine .lifted (phase_safe fun σ₁ _ hσ₁ => ?_)
  split
  · exact hret (hready.later hσ₁)
  split
  · exact hret (hready.later hσ₁)
  rename_i hmembers
  have hbound : members >>> maxCpus = 0 := by
    by_contra hne
    exact hmembers (Or.inr (Or.inl hne))
  have hgate : Harmless (.exchange .gate 0 1 true) := .gate rfl
  refine .lifted (.exchange safetyOutline_silent (fun σ₂ hinv₂ hσ₂ _ => ⟨hgate.does hinv₂, ?_⟩)
    fun σ₂ _ hσ₂ _ => hret ((hready.later hσ₁).later hσ₂))
  have hready₂ := (hready.later (hσ₁.trans hσ₂)).later (hgate.later σ₂ i)
  refine .lifted (phase_safe fun σ₃ _ hσ₃ => ?_)
  have hready₃ := hready₂.later hσ₃
  split
  · exact fail_safe hready₃ fun σ' h => hret h
  rename_i hprevious
  have hprevious : phaseOf σ₃.mem = .idle ∨ phaseOf σ₃.mem = .complete := by
    rw [not_and_or, not_not, not_not] at hprevious
    exact hprevious
  refine .lifted (.read safetyOutline_silent fun σ₄ _ hσ₄ => ?_)
  split
  · exact fail_safe (hready₃.later hσ₄) fun σ' h => hret h
  rename_i epoch hadd
  have hopening := (hready₃.opening rfl hprevious).later hσ₄
  obtain ⟨_, rfl⟩ := Words.checkedAdd_eq_some.mp hadd
  rw [hopening.epoch]
  refine .lifted (.store fun σ₅ hinv₅ hσ₅ => ?_)
  obtain ⟨hdoes₅, hopening₅⟩ := store_members_does hinv₅ (hopening.later hσ₅) hprevious
  refine ⟨hdoes₅, .lifted (.store fun σ₆ hinv₆ hσ₆ => ?_)⟩
  have hmembers₆ : σ₆.mem .members = members :=
    (hσ₆.held hopening₅.held).2.members.trans (σ₅.acted_store_self i _ _)
  obtain ⟨hdoes₆, hopened⟩ :=
    store_epoch_does hinv₆ (hopening₅.later hσ₆) hprevious hcall hmembers₆ hbound
  refine ⟨hdoes₆, .lifted (.exchange safetyOutline_silent (fun σ₇ hinv₇ hσ₇ _ => ?_)
    fun σ₇ _ hσ₇ hne => ?_)⟩
  · refine ⟨begin_does hinv₇ (hopened.later hσ₇), hret ?_⟩
    exact ready_exchange (hopened.later hσ₇).held nofun nofun
  · -- The phase is not the one loaded before: it has failed.
    have hfailed : phaseOf σ₇.mem = .failed := by
      refine (hopened.later hσ₇).phase.resolve_left fun heq => hne ?_
      refine (Phase.ofWord_eq_iff ?_).mp heq
      rcases hprevious with heq | heq <;> rw [heq] <;> nofun
    refine hret ⟨(hopened.later hσ₇).held, .of_phase ?_ ?_⟩
    · rw [hfailed]
      nofun
    · rw [hfailed]
      nofun

end Coordinator

/-! ## The theorem -/

section Proves

variable {σ₀ : State Tid} {i : Cpu Tid}

/-- The calls that make none but harmless operations. -/
def Call.IsHarmless : Call → Prop
  | .phase | .epoch | .members | .tryMembershipChange | .finishMembershipChange | .admitRequest _ _
  | .pending _ | .allQuiet | .allSynced | .fail => True
  | _ => False

theorem harmless_of_reads {p : Ops A} {Q : A → Prop} (h : p.Forall Reads Q) : p.Forall Harmless Q :=
  h.mono fun _ hreads => .read hreads.read

theorem code_harmless {call : Call} (h : call.IsHarmless) : (code call).Only Harmless := by
  cases call with
  | phase => exact (harmless_of_reads phase_reads).bind fun _ _ => trivial
  | epoch => exact (harmless_of_reads (load_reads (c := .epoch) trivial)).bind fun _ _ => trivial
  | members =>
    exact (harmless_of_reads (load_reads (c := .members) trivial)).bind fun _ _ => trivial
  | tryMembershipChange =>
    refine Prog.Forall.bind (Q := fun _ => True) ?_ fun _ _ => trivial
    refine (harmless_of_reads phase_reads).bind fun _ _ => ?_
    split
    · trivial
    refine fun b => ⟨.gate rfl, ?_⟩
    rcases b with _ | _
    · trivial
    · exact (harmless_of_reads phase_reads).bind fun _ _ => trivial
  | finishMembershipChange => exact fun _ => ⟨.gate rfl, trivial⟩
  | admitRequest id e =>
    refine Prog.Forall.bind (Q := fun _ => True) ?_ fun _ _ => trivial
    refine .run_bind (harmless_of_reads (check_reads id e .quiescing)) (fun _ hid => ?_)
      fun _ _ => trivial
    split
    · trivial
    refine .run_bind_lift (harmless_of_reads (load_reads (c := .requested id) (hid rfl)))
      fun _ _ => ?_
    split
    · trivial
    refine .run_bind_lift (Q := fun _ => True) (fun b => ⟨.requested id rfl, trivial⟩)
      fun b _ => ?_
    split <;> trivial
  | pending id => exact (harmless_of_reads (pending_reads id)).bind fun _ _ => trivial
  | allQuiet =>
    have hreads := observed_reads .quiescing .quiet fun _ hid => hid
    exact (harmless_of_reads hreads).bind fun _ _ => trivial
  | allSynced =>
    have hreads := observed_reads .synchronizing .synced fun _ hid => hid
    exact (harmless_of_reads hreads).bind fun _ _ => trivial
  | fail => exact ⟨.fail, trivial⟩
  | _ => exact h.elim

/-- What a call owes when it returns. -/
structure Owed (i : Cpu Tid) (r : Reply) (σ : State Tid) : Prop where
  ready : i.call.IsCoordinator = true → Ready i.tid σ
  mayWrite : ∀ e, i.call = .mayWrite e → r = .flag true →
    Replaced σ.history e ∧ ¬ Published σ.history e
  reusable : ∀ e, i.call = .reusable e → r = .flag true → Done σ.history e

/-- The coordinator's methods that return a result owe no more than to be ready. -/
theorem owed_of_ready {p : Ops A} {f : A → Reply} {call : Call} (hcall : i.call = call)
    (hmay : ∀ e, call ≠ .mayWrite e) (hreusable : ∀ e, call ≠ .reusable e) (hinv₀ : Consistent σ₀)
    (h : StaysReady i p σ₀) :
    (safetyOutline Tid).Safe i (Owed i) (do return f (← p)) σ₀ := by
  subst hcall
  refine .bind hinv₀ h fun a σ _ hσ σ' _ hσ' => ⟨fun _ => hσ.later hσ', ?_, ?_⟩
  · exact fun e heq => absurd heq (hmay e)
  · exact fun e heq => absurd heq (hreusable e)

/-- The others owe nothing, except for `reusable`. -/
theorem owed_of_other {p : Ops Reply} {call : Call} (hcall : i.call = call)
    (hother : call.IsCoordinator = false) (hreusable : ∀ e, call ≠ .reusable e)
    (h : (safetyOutline Tid).Safe i (fun _ _ => True) p σ₀) :
    (safetyOutline Tid).Safe i (Owed i) p σ₀ := by
  subst hcall
  refine h.post fun r σ _ _ => ⟨fun hyes => ?_, fun e heq => ?_, fun e heq => ?_⟩
  · cases hother.symm.trans hyes
  · rw [heq] at hother
    cases hother
  · exact absurd heq (hreusable e)

theorem code_owed (hinv₀ : Consistent σ₀)
    (hready : i.call.IsCoordinator = true → Ready i.tid σ₀) :
    (safetyOutline Tid).Safe i (Owed i) (code i.call) σ₀ := by
  have hharmless : i.call.IsHarmless → i.call.IsCoordinator = false →
      (∀ e, i.call ≠ .reusable e) → (safetyOutline Tid).Safe i (Owed i) (code i.call) σ₀ := by
    intro h hother hreusable
    refine owed_of_other rfl hother hreusable ?_
    exact Outline.Triple.of_forall (code_harmless h)
      (fun σ a hinv _ ha => ha.does hinv) σ₀ hinv₀ trivial
  rcases hcall : i.call with _ | _ | _ | _ | _ | members | ⟨id, e⟩ | id | ⟨id, e⟩ | _ | e | e | e |
    ⟨id, e⟩ | _ | e | e | _ <;> rw [hcall] at hready hharmless
  case begin =>
    exact owed_of_ready hcall nofun nofun hinv₀ (begin_safe hcall (hready rfl))
  case startReplace =>
    exact owed_of_ready hcall nofun nofun hinv₀ (startReplace_safe hcall hinv₀ (hready rfl))
  case publish =>
    exact owed_of_ready hcall nofun nofun hinv₀ (publish_safe hcall hinv₀ (hready rfl))
  case finish =>
    exact owed_of_ready hcall nofun nofun hinv₀ (finish_safe hinv₀ (hready rfl))
  case mayWrite =>
    refine .bind hinv₀ (mayWrite_safe (e := e) hinv₀ (hready rfl)) fun b σ _ h σ' _ hσ' => ?_
    refine ⟨fun _ => h.1.later hσ', fun e' heq hyes => ?_, fun e' heq => ?_⟩
    · cases hcall.symm.trans heq
      obtain ⟨hreplaced, hunpublished⟩ := h.2 (Reply.flag.inj hyes)
      refine ⟨hreplaced.mono hσ'.suffix, fun hp => hunpublished ?_⟩
      exact (hσ'.held h.1.held).2.published e hp
    · cases hcall.symm.trans heq
  case reusable =>
    refine .bind hinv₀ (reusable_safe (e := e)) fun b σ _ h σ' _ hσ' => ?_
    refine ⟨fun hyes => ?_, fun e' heq => ?_, fun e' heq hyes => ?_⟩
    · rw [hcall] at hyes
      cases hyes
    · cases hcall.symm.trans heq
    · cases hcall.symm.trans heq
      exact (h (Reply.flag.inj hyes)).mono hσ'.suffix
  case quiesce =>
    refine owed_of_other hcall rfl nofun ?_
    exact .bind hinv₀ (quiesce_safe hcall hinv₀) fun _ _ _ _ _ _ _ => trivial
  case synchronized =>
    refine owed_of_other hcall rfl nofun ?_
    exact .bind hinv₀ (synchronized_safe hcall hinv₀) fun _ _ _ _ _ _ _ => trivial
  all_goals exact hharmless trivial rfl nofun

theorem calm_started (σ : State Tid) (env : Option Tid) : Calm σ (σ.started i env) :=
  .of_event rfl rfl rfl (Or.inl rfl) (fun _ _ => Event.start_ne_act _ _ _)
    fun _ => Event.start_ne_act _ _ _

theorem calm_returned (σ : State Tid) (r : Reply) (env : Option Tid) :
    Calm σ (σ.returned i r env) :=
  .of_event rfl rfl rfl (Or.inl rfl) (fun _ _ => Event.ret_ne_act _ _ _ _)
    fun _ => Event.ret_ne_act _ _ _ _

/-- A return is good where the call has done what it owes. -/
theorem returns_of_owed {r : Reply} (hinv : Consistent σ) (h : Owed i r σ) :
    (safetyOutline Tid).Returns (coordinated Tid) i r σ := by
  have hcalm : ∀ env, Calm σ (σ.returned i r env) := fun env => calm_returned σ r env
  refine ⟨hinv.calm (hcalm _) ⟨fun _ => Or.inl rfl, fun _ => Or.inl rfl⟩ fun henv => ?_, ?_, ?_⟩
  · by_cases hcoordinator : i.call.IsCoordinator = true
    · exact (h.ready hcoordinator).settled.calm (hcalm _)
    · have hsame : (if i.call.IsCoordinator then none else σ.env) = σ.env := if_neg hcoordinator
      exact (hinv.settled (hsame.symm.trans henv)).calm (hcalm _)
  · constructor
    case replacing => exact fun hne hphase => absurd hphase hne
    case synchronizing => exact fun hne hphase => absurd hphase hne
    case complete => exact fun hne hphase => absurd hphase hne
    case mayWrite =>
      rintro _ e ⟨⟩ hcall
      exact h.mayWrite e hcall rfl
    case reusable =>
      rintro _ e ⟨⟩ hcall
      obtain ⟨members, hbegan, hall⟩ := h.reusable e hcall rfl
      exact hinv.everyMember hbegan hall
  · intro t hne
    refine .of_calm (hcalm _) fun henv => ?_
    by_cases hcoordinator : i.call.IsCoordinator = true
    · have hheld := (h.ready hcoordinator).held
      rw [henv] at hheld
      exact absurd (Option.some.inj hheld) hne
    · have hsame : (if i.call.IsCoordinator then none else σ.env) = σ.env := if_neg hcoordinator
      exact hsame.trans henv

theorem safetyOutline_proves : (safetyOutline Tid).Proves (coordinated Tid) := by
  intro σ t call env hinv hstart
  have hcalm : Calm σ (σ.started (σ.invoke t call) env) := calm_started σ env
  -- A coordinator's call starts where none is running; any other leaves the environment alone.
  have henv : (call.IsCoordinator = true ∧ σ.env = none ∧ env = some t) ∨
      (call.IsCoordinator = false ∧ env = σ.env) := by
    cases hcall : call.IsCoordinator with
    | true =>
      cases hnone : σ.env with
      | none =>
        simp only [coordinated, hcall, hnone, if_true] at hstart
        exact Or.inl ⟨rfl, rfl, (Option.some.inj hstart).symm⟩
      | some t' => simp [coordinated, hcall, hnone] at hstart
    | false =>
      simp only [coordinated, hcall, Bool.false_eq_true, if_false] at hstart
      exact Or.inr ⟨rfl, (Option.some.inj hstart).symm⟩
  have hgood : (safetyOutline Tid).Good t σ (.start (σ.invoke t call))
      (σ.started (σ.invoke t call) env) := by
    refine ⟨hinv.calm hcalm ⟨fun _ => Or.inl rfl, fun _ => Or.inl rfl⟩ fun hnone => ?_,
      .of_calm hcalm nofun, fun t' _ => .of_calm hcalm fun hheld => ?_⟩
    · rcases henv with ⟨_, _, rfl⟩ | ⟨_, rfl⟩
      · cases hnone
      · exact (hinv.settled hnone).calm hcalm
    · rcases henv with ⟨_, hnone, _⟩ | ⟨_, rfl⟩
      · cases hnone.symm.trans hheld
      · exact hheld
  refine ⟨hgood, (code_owed (i := σ.invoke t call) hgood.inv fun hyes => ?_).post
    fun r σ' hinv' howed => returns_of_owed hinv' howed⟩
  rcases henv with ⟨_, hnone, rfl⟩ | ⟨hno, _⟩
  · exact ⟨rfl, (hinv.settled hnone).calm hcalm⟩
  · cases hno.symm.trans hyes

theorem consistent_initial : Consistent (initial Tid (Option Tid) none) where
  quiet _ h := absurd rfl h
  synced _ h := absurd rfl h
  began := by
    rintro e members ⟨_, _, ⟨⟩⟩
  unique := by
    rintro e members members' ⟨_, _, ⟨⟩⟩
  past _ _ hlt := absurd hlt (Nat.not_lt_zero _)
  current hpos := absurd hpos (Nat.lt_irrefl 0)
  published := by
    rintro e ⟨_, _, ⟨⟩⟩
  active h := h.elim
  unpublished h := by
    rcases h with h | h <;> cases h
  replacing h := nomatch h
  synchronizing h := nomatch h
  settled _ := ⟨nofun, fun _ => rfl⟩

end Proves

/-- The update protocol is safe in every interleaving of any CPUs with one coordinator. A step to
`Replacing` is made when every CPU in the set of the current epoch has stored that it is quiet in
this epoch; a step to `Complete`, when each has stored that it has synchronized in this epoch, by a
call that passed its check after the publication. A positive answer of `may_write` means that the
epoch has reached `Replacing` and is not published; one of `reusable`, that every CPU in its set has
synchronized. -/
theorem update_safe [DecidableEq Tid]
    {c c' : Config (fun _ : Cell => Nat) Tid Call Reply (Option Tid)}
    {ev : Event (fun _ : Cell => Nat) Tid Call Reply}
    (hreach : Reach (coordinated Tid) (initial Tid (Option Tid) none) c)
    (hstep : Step (coordinated Tid) c ev c') : Warranted c.shared ev c'.shared :=
  Outline.sound_step safetyOutline_proves consistent_initial hreach hstep

/-- A CPU makes a call and goes through it without interruption. -/
def uninterrupted (t : Nat) (call : Call) (steps : Nat) : List (Move Nat Call) :=
  .start t call :: List.replicate steps (.next t)

/-- One whole update of CPUs 0 and 1, up to the answer that its old backing may be used again. -/
def updateOnce : List (Move Nat Call) :=
  List.flatten [uninterrupted 0 (.begin 3) 8, uninterrupted 0 (.quiesce 0 1) 7,
    uninterrupted 1 (.admitRequest 1 1) 8, uninterrupted 1 (.quiesce 1 1) 8,
    uninterrupted 0 (.startReplace 1) 15, uninterrupted 0 (.publish 1) 7,
    uninterrupted 0 (.synchronized 0 1) 7, uninterrupted 1 (.synchronized 1 1) 7,
    uninterrupted 0 (.finish 1) 16, uninterrupted 1 (.reusable 1) 10]

/-- The answer that the page of the first update may be used again. -/
def isReused : Event (fun _ : Cell => Nat) Nat Call Reply → Bool
  | .ret ⟨_, _, .reusable 1, _⟩ (.flag true) => true
  | _ => false

theorem update_safe_updateOnce :
    ∃ c i c', Config.run (coordinated Nat) ⟨initial Nat (Option Nat) none, fun _ => none⟩
        updateOnce = some c ∧
      Config.move (coordinated Nat) c (.next 1) = some (.ret i (.flag true), c') ∧
      i.call = .reusable 1 ∧ EveryMember c.shared.history 1 fun id =>
        SyncedAfterPublish c.shared.history id 1 := by
  have hlast : ((Config.run (coordinated Nat) ⟨initial Nat (Option Nat) none, fun _ => none⟩
      updateOnce).bind fun c => (Config.move (coordinated Nat) c (.next 1)).map fun step =>
        isReused step.1) = some true := by
    decide +kernel
  obtain ⟨c, hrun, hmove⟩ := Option.bind_eq_some_iff.mp hlast
  obtain ⟨⟨ev, c'⟩, hmove, hev⟩ := Option.map_eq_some_iff.mp hmove
  dsimp only [isReused] at hev
  split at hev
  · have h := update_safe (Config.run_steps hrun) (Config.move_step hmove)
    exact ⟨c, _, c', hrun, hmove, rfl, h.reusable _ 1 rfl rfl⟩
  · cases hev

end Tvisor.TlbUpdate
