/-
# Tvisor.TlbUpdate.Epochs -- what the cells say about the epochs

The facts that the protocol is about are facts of its history: an epoch was begun with a set, it has
been replaced and published, a CPU has stored its acknowledgement. `Consistent` says what the cells
tell about them. It is kept by every step that leaves the epoch, the members and the phase alone,
apart from a failure (`Calm`); the steps that do not are the coordinator's.
-/
import Mathlib.Data.List.Infix
import Tvisor.TlbUpdate

namespace Tvisor.TlbUpdate

open Interleave

variable {Tid : Type}

/-! ## The coordinator -/

/-- The calls that one coordinator issues, one at a time. -/
def Call.IsCoordinator : Call → Bool
  | .begin _ | .startReplace _ | .mayWrite _ | .publish _ | .finish _ => true
  | _ => false

/-- Any CPU may make any other call at any time. The environment has the CPU that is inside a
coordinator's call. -/
def coordinated (Tid : Type) : System (fun _ : Cell => Nat) Tid Call Reply (Option Tid) where
  code := code
  start env t call :=
    if call.IsCoordinator then
      match env with
      | none => some (some t)
      | some _ => none
    else some env
  finish env _ call _ := if call.IsCoordinator then none else env

/-! ## Facts of the history -/

variable {ev : Event (fun _ : Cell => Nat) Tid Call Reply}

abbrev History (Tid : Type) := List (Event (fun _ : Cell => Nat) Tid Call Reply)

abbrev State (Tid : Type) := Shared (fun _ : Cell => Nat) Tid Call Reply (Option Tid)

/-- This epoch was begun with this set. -/
def Began (history : History Tid) (e members : Nat) : Prop :=
  ∃ i : Cpu Tid, i.call = .begin members ∧ .act i (.store .epoch e) ∈ history

def QuietStored (history : History Tid) (id e : Nat) : Prop :=
  ∃ i : Cpu Tid, i.call = .quiesce id e ∧ .act i (.store (.quiet id) e) ∈ history

/-- This epoch has reached `Replacing`. -/
def Replaced (history : History Tid) (e : Nat) : Prop :=
  ∃ i : Cpu Tid, i.call = .startReplace e ∧ .act i (.exchange .phase 1 2 true) ∈ history

def Published (history : History Tid) (e : Nat) : Prop :=
  ∃ i : Cpu Tid, i.call = .publish e ∧ .act i (.exchange .phase 2 3 true) ∈ history

/-- The last two loads of a check for `Synchronizing`, and the publication before them. -/
def PassedAfterPublish (history : History Tid) (i : Cpu Tid) (e : Nat) : Prop :=
  ∃ j : Cpu Tid, j.call = .publish e ∧
    [.act i (.load .gate 1), .act i (.load .phase 3), .act j (.exchange .phase 2 3 true)].Sublist
      history

/-- The store of a `synchronized` call whose check passed after the publication. The history has the
newest event first. -/
def SyncedAfterPublish (history : History Tid) (id e : Nat) : Prop :=
  ∃ i j : Cpu Tid, i.call = .synchronized id e ∧ j.call = .publish e ∧
    [.act i (.store (.synced id) e), .act i (.load .gate 1), .act i (.load .phase 3),
      .act j (.exchange .phase 2 3 true)].Sublist history

/-- Every CPU of a set that the epoch was begun with has synchronized. -/
def Done (history : History Tid) (e : Nat) : Prop :=
  ∃ members, Began history e members ∧ ∀ id, isMember members id → SyncedAfterPublish history id e

section Facts

variable {g h : History Tid} {i : Cpu Tid} {id e members : Nat}

theorem Began.mono (hb : Began g e members) (hs : g <:+ h) : Began h e members := by
  obtain ⟨i, hcall, hmem⟩ := hb
  exact ⟨i, hcall, hs.subset hmem⟩

theorem QuietStored.mono (hq : QuietStored g id e) (hs : g <:+ h) : QuietStored h id e := by
  obtain ⟨i, hcall, hmem⟩ := hq
  exact ⟨i, hcall, hs.subset hmem⟩

theorem Replaced.mono (hr : Replaced g e) (hs : g <:+ h) : Replaced h e := by
  obtain ⟨i, hcall, hmem⟩ := hr
  exact ⟨i, hcall, hs.subset hmem⟩

theorem Published.mono (hp : Published g e) (hs : g <:+ h) : Published h e := by
  obtain ⟨i, hcall, hmem⟩ := hp
  exact ⟨i, hcall, hs.subset hmem⟩

theorem PassedAfterPublish.mono (hp : PassedAfterPublish g i e) (hs : g <:+ h) :
    PassedAfterPublish h i e := by
  obtain ⟨j, hcall, hsub⟩ := hp
  exact ⟨j, hcall, hsub.trans hs.sublist⟩

theorem SyncedAfterPublish.mono (hp : SyncedAfterPublish g id e) (hs : g <:+ h) :
    SyncedAfterPublish h id e := by
  obtain ⟨i, j, hi, hj, hsub⟩ := hp
  exact ⟨i, j, hi, hj, hsub.trans hs.sublist⟩

theorem Done.mono (hd : Done g e) (hs : g <:+ h) : Done h e := by
  obtain ⟨members, hbegan, hall⟩ := hd
  exact ⟨members, hbegan.mono hs, fun id hid => (hall id hid).mono hs⟩

/-- Only a store of the epoch begins one. -/
theorem Began.of_cons (hb : Began (ev :: h) e members)
    (hev : ∀ i v, ev ≠ .act i (.store .epoch v)) :
    Began h e members := by
  obtain ⟨i, hcall, hmem⟩ := hb
  rcases List.mem_cons.mp hmem with heq | hold
  · exact absurd heq.symm (hev i e)
  · exact ⟨i, hcall, hold⟩

theorem Published.of_cons (hp : Published (ev :: h) e)
    (hev : ∀ i, ev ≠ .act i (.exchange .phase 2 3 true)) :
    Published h e := by
  obtain ⟨i, hcall, hmem⟩ := hp
  rcases List.mem_cons.mp hmem with heq | hold
  · exact absurd heq.symm (hev i)
  · exact ⟨i, hcall, hold⟩

end Facts

/-! ## Steps that leave the coordinator alone -/

/-- The later state differs in nothing that the coordinator goes by, except for a failure. -/
structure Calm (σ σ' : State Tid) : Prop where
  suffix : σ.history <:+ σ'.history
  epoch : σ'.mem .epoch = σ.mem .epoch
  members : σ'.mem .members = σ.mem .members
  phase : phaseOf σ'.mem = phaseOf σ.mem ∨ phaseOf σ'.mem = .failed
  began : ∀ e members, Began σ'.history e members → Began σ.history e members
  published : ∀ e, Published σ'.history e → Published σ.history e

namespace Calm

variable {σ σ' σ'' : State Tid}

theorem refl (σ : State Tid) : Calm σ σ :=
  ⟨List.suffix_refl _, rfl, rfl, Or.inl rfl, fun _ _ => id, fun _ => id⟩

theorem phase_or_failed (h : Calm σ σ') {p : Phase}
    (hp : phaseOf σ.mem = p ∨ phaseOf σ.mem = .failed) :
    phaseOf σ'.mem = p ∨ phaseOf σ'.mem = .failed := by
  rcases h.phase with hsame | hfailed
  · rw [hsame]
    exact hp
  · exact Or.inr hfailed

theorem trans (h : Calm σ σ') (h' : Calm σ' σ'') : Calm σ σ'' where
  suffix := h.suffix.trans h'.suffix
  epoch := h'.epoch.trans h.epoch
  members := h'.members.trans h.members
  phase := h'.phase_or_failed h.phase
  began e members hb := h.began e members (h'.began e members hb)
  published e hp := h.published e (h'.published e hp)

/-- A phase that is seen later and is no failure was there before. -/
theorem phase_eq (h : Calm σ σ') {p : Phase} (hp : phaseOf σ'.mem = p) (hne : p ≠ .failed) :
    phaseOf σ.mem = p := by
  rcases h.phase with hsame | hfailed
  · exact hsame.symm.trans hp
  · exact absurd (hp.symm.trans hfailed) hne

/-- An event that writes none of the three cells. -/
theorem of_event (hhistory : σ'.history = ev :: σ.history) (hepoch : σ'.mem .epoch = σ.mem .epoch)
    (hmembers : σ'.mem .members = σ.mem .members)
    (hphase : phaseOf σ'.mem = phaseOf σ.mem ∨ phaseOf σ'.mem = .failed)
    (hbegan : ∀ i v, ev ≠ .act i (.store .epoch v))
    (hpublished : ∀ i, ev ≠ .act i (.exchange .phase 2 3 true)) : Calm σ σ' where
  suffix := hhistory ▸ List.suffix_cons ev σ.history
  epoch := hepoch
  members := hmembers
  phase := hphase
  began e members hb := by
    rw [hhistory] at hb
    exact hb.of_cons hbegan
  published e hp := by
    rw [hhistory] at hp
    exact hp.of_cons hpublished

variable {i : Cpu Tid} {a : Action fun _ : Cell => Nat}

theorem of_read (h : a.IsRead) : Calm σ (σ.acted i a) := by
  have hmem : (σ.acted i a).mem = σ.mem := h.apply_eq σ.mem
  refine of_event rfl (by rw [hmem]) (by rw [hmem]) (Or.inl (by rw [hmem])) ?_ ?_
  · rintro j v ⟨⟩
    exact h
  · rintro j ⟨⟩
    cases h

/-- A write of a cell that the coordinator does not go by. -/
theorem of_loc (hepoch : a.loc ≠ .epoch) (hmembers : a.loc ≠ .members) (hphase : a.loc ≠ .phase) :
    Calm σ (σ.acted i a) := by
  refine of_event rfl (σ.acted_mem_of_ne i hepoch.symm) (σ.acted_mem_of_ne i hmembers.symm)
    (Or.inl ?_) ?_ ?_
  · rw [phaseOf, phaseOf, σ.acted_mem_of_ne i hphase.symm]
  · rintro j v ⟨⟩
    exact hepoch rfl
  · rintro j ⟨⟩
    exact hphase rfl

theorem of_fail : Calm σ (σ.acted i (.store .phase Phase.failed.toWord)) := by
  refine of_event rfl (σ.acted_mem_of_ne i nofun) (σ.acted_mem_of_ne i nofun)
    (Or.inr ?_) nofun nofun
  rw [phaseOf, σ.acted_store_self i]
  rfl

end Calm

/-! ## The invariant -/

/-- Between two calls of the coordinator a complete epoch is done, and none is idle. -/
structure Settled (σ : State Tid) : Prop where
  complete : phaseOf σ.mem = .complete →
    Done σ.history (σ.mem .epoch) ∧ Published σ.history (σ.mem .epoch)
  idle : phaseOf σ.mem = .idle → σ.mem .epoch = 0

/-- The phases of an epoch that is under way. -/
def Phase.IsActive : Phase → Prop
  | .quiescing | .replacing | .synchronizing => True
  | _ => False

structure Consistent (σ : State Tid) : Prop where
  quiet : ∀ id, σ.mem (.quiet id) ≠ 0 → QuietStored σ.history id (σ.mem (.quiet id))
  synced : ∀ id, σ.mem (.synced id) ≠ 0 → SyncedAfterPublish σ.history id (σ.mem (.synced id))
  began : ∀ e members, Began σ.history e members →
    0 < e ∧ e ≤ σ.mem .epoch ∧ members >>> maxCpus = 0
  unique : ∀ e members members', Began σ.history e members → Began σ.history e members' →
    members = members'
  past : ∀ e, 0 < e → e < σ.mem .epoch → Done σ.history e ∧ Published σ.history e
  /-- The members are stored before the epoch: between the two stores the epoch is done. -/
  current : 0 < σ.mem .epoch → ∃ members, Began σ.history (σ.mem .epoch) members ∧
    (σ.mem .members = members ∨ Done σ.history (σ.mem .epoch))
  published : ∀ e, Published σ.history e → e ≤ σ.mem .epoch
  active : (phaseOf σ.mem).IsActive → Began σ.history (σ.mem .epoch) (σ.mem .members)
  unpublished : phaseOf σ.mem = .quiescing ∨ phaseOf σ.mem = .replacing →
    ¬ Published σ.history (σ.mem .epoch)
  replacing : phaseOf σ.mem = .replacing → Replaced σ.history (σ.mem .epoch)
  synchronizing : phaseOf σ.mem = .synchronizing → Published σ.history (σ.mem .epoch)
  settled : σ.env = none → Settled σ

section Invariant

variable {σ σ' : State Tid}

theorem Settled.calm (h : Settled σ) (hcalm : Calm σ σ') : Settled σ' where
  complete hcomplete := by
    obtain ⟨hdone, hpublished⟩ := h.complete (hcalm.phase_eq hcomplete nofun)
    rw [hcalm.epoch]
    exact ⟨hdone.mono hcalm.suffix, hpublished.mono hcalm.suffix⟩
  idle hidle := by
    rw [hcalm.epoch]
    exact h.idle (hcalm.phase_eq hidle nofun)

theorem Settled.of_phase (hcomplete : phaseOf σ.mem ≠ .complete) (hidle : phaseOf σ.mem ≠ .idle) :
    Settled σ :=
  ⟨fun h => absurd h hcomplete, fun h => absurd h hidle⟩

/-- The acknowledgements that a step has stored were made. -/
structure AcksMade (σ σ' : State Tid) : Prop where
  quiet : ∀ id, σ'.mem (.quiet id) = σ.mem (.quiet id) ∨
    QuietStored σ'.history id (σ'.mem (.quiet id))
  synced : ∀ id, σ'.mem (.synced id) = σ.mem (.synced id) ∨
    SyncedAfterPublish σ'.history id (σ'.mem (.synced id))

/-- A step that leaves the epoch and its set alone keeps the invariant where the acknowledgements it
stores have been made and the new phase has what it stands for. -/
theorem Consistent.same_epoch (h : Consistent σ) (hsuffix : σ.history <:+ σ'.history)
    (hepoch : σ'.mem .epoch = σ.mem .epoch) (hmembers : σ'.mem .members = σ.mem .members)
    (hbegan : ∀ e members, Began σ'.history e members → Began σ.history e members)
    (hacks : AcksMade σ σ')
    (hpublished : ∀ e, Published σ'.history e → e ≤ σ.mem .epoch)
    (hactive : (phaseOf σ'.mem).IsActive → Began σ.history (σ.mem .epoch) (σ.mem .members))
    (hunpublished : phaseOf σ'.mem = .quiescing ∨ phaseOf σ'.mem = .replacing →
      ¬ Published σ'.history (σ.mem .epoch))
    (hreplacing : phaseOf σ'.mem = .replacing → Replaced σ'.history (σ.mem .epoch))
    (hsynchronizing : phaseOf σ'.mem = .synchronizing → Published σ'.history (σ.mem .epoch))
    (hsettled : σ'.env = none → Settled σ') : Consistent σ' where
  quiet id hne := by
    rcases hacks.quiet id with hsame | hstored
    · rw [hsame] at hne ⊢
      exact (h.quiet id hne).mono hsuffix
    · exact hstored
  synced id hne := by
    rcases hacks.synced id with hsame | hstored
    · rw [hsame] at hne ⊢
      exact (h.synced id hne).mono hsuffix
    · exact hstored
  began e members hb := by
    rw [hepoch]
    exact h.began e members (hbegan e members hb)
  unique e members members' hb hb' :=
    h.unique e members members' (hbegan e _ hb) (hbegan e _ hb')
  past e hpos hlt := by
    rw [hepoch] at hlt
    obtain ⟨hdone, hpub⟩ := h.past e hpos hlt
    exact ⟨hdone.mono hsuffix, hpub.mono hsuffix⟩
  current hpos := by
    rw [hepoch] at hpos ⊢
    obtain ⟨members, hb, hcase⟩ := h.current hpos
    rw [hmembers]
    exact ⟨members, hb.mono hsuffix, hcase.imp_right fun hd => hd.mono hsuffix⟩
  published := hepoch ▸ hpublished
  active hphase := by
    rw [hepoch, hmembers]
    exact (hactive hphase).mono hsuffix
  unpublished := hepoch ▸ hunpublished
  replacing := hepoch ▸ hreplacing
  synchronizing := hepoch ▸ hsynchronizing
  settled := hsettled

/-- In particular a calm step, whose phase is the old one or a failure. -/
theorem Consistent.calm (h : Consistent σ) (hcalm : Calm σ σ') (hacks : AcksMade σ σ')
    (hsettled : σ'.env = none → Settled σ') : Consistent σ' := by
  refine h.same_epoch hcalm.suffix hcalm.epoch hcalm.members hcalm.began hacks
    (fun e hp => h.published e (hcalm.published e hp)) ?_ ?_ ?_ ?_ hsettled
  · intro hactive
    rcases hcalm.phase with hsame | hfailed
    · exact h.active (hsame ▸ hactive)
    · rw [hfailed] at hactive
      exact hactive.elim
  · intro hphase hp
    refine h.unpublished ?_ (hcalm.published _ hp)
    exact hphase.imp (fun hq => hcalm.phase_eq hq nofun) fun hr => hcalm.phase_eq hr nofun
  · exact fun hphase => (h.replacing (hcalm.phase_eq hphase nofun)).mono hcalm.suffix
  · exact fun hphase => (h.synchronizing (hcalm.phase_eq hphase nofun)).mono hcalm.suffix

/-- An epoch that was once the current one has a set, and where the members are no longer that set
it is done. -/
theorem Consistent.began_of_le (h : Consistent σ) {e : Nat} (hpos : 0 < e)
    (hle : e ≤ σ.mem .epoch) :
    Done σ.history e ∨ Began σ.history e (σ.mem .members) ∧ σ.mem .epoch = e := by
  rcases Nat.lt_or_eq_of_le hle with hlt | rfl
  · exact Or.inl (h.past e hpos hlt).1
  · obtain ⟨members, hbegan, rfl | hdone⟩ := h.current hpos
    · exact Or.inr ⟨hbegan, rfl⟩
    · exact Or.inl hdone

/-- An epoch at whose number or after which `Synchronizing` is seen has been published. -/
theorem Consistent.published_of_le (h : Consistent σ) {e : Nat} (hpos : 0 < e)
    (hle : e ≤ σ.mem .epoch) (hphase : phaseOf σ.mem = .synchronizing) : Published σ.history e := by
  rcases Nat.lt_or_eq_of_le hle with hlt | rfl
  · exact (h.past e hpos hlt).2
  · exact h.synchronizing hphase

end Invariant

end Tvisor.TlbUpdate
