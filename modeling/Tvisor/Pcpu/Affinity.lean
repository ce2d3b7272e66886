/-
# Tvisor.Pcpu.Affinity -- the slot of an affinity

`find_slot_by_affinity` goes through the slots and gives up when two of them have the affinity it
looks for. The slots are at rest: each is as `PcpuSlot::new` left it, or a `prepare` has succeeded
on it, and since then its mailbox has been used in any way.
-/
import Tvisor.Lib.Effects
import Tvisor.Lib.Selection
import Tvisor.Pcpu
import Tvisor.SecondaryMailbox.Protocol

namespace Tvisor.Pcpu

open Interleave Fallible Words CpuTopology Selection
open SecondaryMailbox (CpuState)

/-! ## The source -/

abbrev Memory := Cell → Nat

/-- `PcpuSlot::new`. -/
def PcpuSlot.new : Memory := fun _ => 0

/-- `slot.identity()` with nobody else at the slot. -/
def identityOf (address : Nat) (slot : Memory) : Except (Stop String) (Option CpuIdentity) :=
  ((identity address).run.exec slot).1

/-- The loop, over the slots that are left and their places. -/
def findSlot (address : Nat → Nat) (affinity : Nat) :
    List (Memory × Nat) → Option Nat → Except (Stop String) (Option Nat)
  | [], found => .ok found
  | (slot, i) :: rest, found => do
      if (← identityOf (address i) slot).any fun identity => identity.affinity == affinity then
        if found.isSome then return none
        else findSlot address affinity rest (some i)
      else findSlot address affinity rest found

/-- The slot that is returned is named by its place. -/
def findSlotByAffinity (address : Nat → Nat) (slots : List Memory) (mpidr : Nat) :
    Except (Stop String) (Option Nat) :=
  if maxCpus < slots.length then .ok none
  else findSlot address (mpidr &&& mpidrAffinityMask) slots.zipIdx none

/-! ## Slots at rest -/

/-- What stays as `prepare` wrote it. -/
def settled : List Cell := [.claimed, .logicalId, .affinity, .stackBottom, .stackTop, .present]

/-- A slot on which this preparation has succeeded. Its mailbox is no longer `Offline` and in any
state that calls of any CPUs lead to. -/
structure Prepared (slot : Memory) (id affinity : Nat) (stack : StackLayout) : Prop where
  context : ∃ fresh, (prepare id affinity stack).run.exec PcpuSlot.new = (.ok (), fresh) ∧
    ∀ c ∈ settled, slot c = fresh c
  mailbox : ∃ (Tid : Type) (_ : DecidableEq Tid)
    (c : Config (fun _ : SecondaryMailbox.Cell => Nat) Tid SecondaryMailbox.Call
      SecondaryMailbox.Reply SecondaryMailbox.Claims),
    Reach (SecondaryMailbox.system Tid) (SecondaryMailbox.initial Tid) c ∧
      ∀ k, slot (.mailbox k) = c.shared.mem k
  marked : slot (.mailbox .state) ≠ CpuState.offline.toWord

inductive AtRest (slot : Memory) : Prop
  | untouched (h : slot = PcpuSlot.new)
  | prepared {id affinity : Nat} {stack : StackLayout} (h : Prepared slot id affinity stack)

section Slots

variable {slot fresh : Memory} {id affinity : Nat} {stack : StackLayout}

/-- The lifecycle of a prepared slot. -/
theorem Prepared.lifecycle (h : Prepared slot id affinity stack) :
    ∃ s : CpuState, s ≠ .offline ∧ slot (.mailbox .state) = s.toWord := by
  obtain ⟨Tid, _, c, hreach, hmem⟩ := h.mailbox
  obtain ⟨s, hs⟩ := (Outline.sound SecondaryMailbox.protocol_proves
    SecondaryMailbox.consistent_initial hreach).inv.word
  have hword : slot (.mailbox .state) = s.toWord := (hmem .state).trans hs
  refine ⟨s, ?_, hword⟩
  rintro rfl
  exact h.marked hword

theorem identityOf_of_offline (address : Nat) (h : slot (.mailbox .state) = 0) :
    identityOf address slot = .ok none := by
  show (Prog.exec (Prog.load (.mailbox .state) _) slot).1 = _
  rw [Prog.exec, h]
  rfl

theorem identityOf_of_lifecycle (address : Nat) {s : CpuState} (hs : s ≠ .offline)
    (h : slot (.mailbox .state) = s.toWord) :
    identityOf address slot = .ok (some ⟨slot .logicalId, slot .affinity, slot .stackBottom,
      slot .stackTop, address⟩) := by
  show (Prog.exec (Prog.load (.mailbox .state) _) slot).1 = _
  rw [Prog.exec, h]
  cases s with
  | offline => exact absurd rfl hs
  | prepared | starting | parked | online | failed => rfl

/-- What a successful preparation has checked, and what is still there. -/
structure Context (slot : Memory) (id affinity : Nat) (stack : StackLayout) : Prop where
  checked : ¬ badPreparation id affinity stack
  logicalId : slot .logicalId = id
  affinity : slot .affinity = affinity
  stackBottom : slot .stackBottom = stack.bottom
  stackTop : slot .stackTop = stack.top
  present : slot .present = 1

theorem context_new (h : (prepare id affinity stack).run.exec PcpuSlot.new = (.ok (), fresh)) :
    Context fresh id affinity stack := by
  by_cases hbad : badPreparation id affinity stack
  · rw [prepare, if_pos hbad] at h
    cases h
  · rw [prepare, if_neg hbad] at h
    cases h
    exact ⟨hbad, rfl, rfl, rfl, rfl, rfl⟩

theorem Prepared.kept (h : Prepared slot id affinity stack) : Context slot id affinity stack := by
  obtain ⟨fresh, hrun, hsettled⟩ := h.context
  have hfresh := context_new hrun
  exact ⟨hfresh.checked, (hsettled _ (by decide)).trans hfresh.logicalId,
    (hsettled _ (by decide)).trans hfresh.affinity,
    (hsettled _ (by decide)).trans hfresh.stackBottom,
    (hsettled _ (by decide)).trans hfresh.stackTop, (hsettled _ (by decide)).trans hfresh.present⟩

/-! ## The lookup -/

/-- The slot is present and has this affinity. -/
def HasAffinity (slot : Memory) (affinity : Nat) : Prop :=
  slot .present = 1 ∧ slot .affinity = affinity

/-- A slot at rest has an identity with this affinity exactly if it is present with it: the mailbox
leaves `Offline` when the context is filled. -/
theorem AtRest.identityOf_any (h : AtRest slot) (address affinity : Nat) :
    ∃ r, identityOf address slot = .ok r ∧
      ((r.any fun identity => identity.affinity == affinity) = true ↔
        HasAffinity slot affinity) := by
  cases h with
  | untouched hnew =>
    subst hnew
    refine ⟨none, identityOf_of_offline address rfl, iff_of_false nofun ?_⟩
    rintro ⟨hpresent, -⟩
    cases hpresent
  | prepared hprepared =>
    obtain ⟨s, hs, hword⟩ := hprepared.lifecycle
    refine ⟨_, identityOf_of_lifecycle address hs hword, ?_⟩
    simp [HasAffinity, hprepared.kept.present]

end Slots

section Lookup

variable (address : Nat → Nat) {affinity : Nat} {p : Nat → Prop}

/-- The loop over the slots from place `n` on. -/
theorem findSlot_sole {rest : List Memory} (hrest : ∀ slot ∈ rest, AtRest slot) {n : Nat}
    (hp : ∀ j slot, rest[j]? = some slot → (p (n + j) ↔ HasAffinity slot affinity))
    {found : Option Nat} (hseen : Seen p n found) :
    ∃ r, findSlot address affinity (rest.zipIdx n) found = .ok r ∧
      ∀ i, r = some i ↔ Sole p (n + rest.length) i := by
  induction rest generalizing n found with
  | nil => exact ⟨found, rfl, fun i => hseen.eq_some_iff⟩
  | cons slot rest ih =>
    obtain ⟨r, hidentity, hany⟩ :=
      (hrest slot List.mem_cons_self).identityOf_any (address n) affinity
    have hhere : p n ↔ HasAffinity slot affinity := hp 0 slot rfl
    have hlater : ∀ j slot', rest[j]? = some slot' →
        (p (n + 1 + j) ↔ HasAffinity slot' affinity) := by
      intro j slot' hj
      rw [Nat.add_right_comm]
      exact hp (j + 1) slot' hj
    have hrun : findSlot address affinity ((slot, n) :: rest.zipIdx (n + 1)) found =
        if (r.any fun identity => identity.affinity == affinity) = true then
          if found.isSome then .ok none
          else findSlot address affinity (rest.zipIdx (n + 1)) (some n)
        else findSlot address affinity (rest.zipIdx (n + 1)) found := by
      rw [findSlot, hidentity]
      rfl
    have hatRest : ∀ slot' ∈ rest, AtRest slot' := fun slot' h =>
      hrest slot' (List.mem_cons_of_mem _ h)
    have hlength : n + (slot :: rest).length = n + 1 + rest.length := by
      rw [List.length_cons]
      omega
    rw [List.zipIdx_cons, hrun, hlength]
    by_cases hmatch : HasAffinity slot affinity
    · have hhit : p n := hhere.mpr hmatch
      rw [if_pos (hany.mpr hmatch)]
      cases found with
      | none => exact ih hatRest hlater (hseen.first hhit)
      | some i =>
        exact ⟨none, rfl, fun k => iff_of_false nofun (hseen.clash hhit (by omega) k)⟩
    · rw [if_neg (mt hany.mp hmatch)]
      exact ih hatRest hlater (hseen.skip (mt hhere.mp hmatch))

/-- The slot at this place has the affinity. -/
def MatchesAt (slots : List Memory) (affinity i : Nat) : Prop :=
  ∃ slot, slots[i]? = some slot ∧ HasAffinity slot affinity

theorem matchesAt_iff {slots : List Memory} {i : Nat} {slot : Memory} (h : slots[i]? = some slot) :
    MatchesAt slots affinity i ↔ HasAffinity slot affinity := by
  rw [MatchesAt, h]
  simp

/-- The lookup returns the only slot of the affinity, and nothing if there are two or none. -/
theorem findSlotByAffinity_sole {slots : List Memory} (hslots : ∀ slot ∈ slots, AtRest slot)
    (hcount : slots.length ≤ maxCpus) (mpidr i : Nat) :
    findSlotByAffinity address slots mpidr = .ok (some i) ↔
      Sole (MatchesAt slots (mpidr &&& mpidrAffinityMask)) slots.length i := by
  have hmatches : ∀ j slot, slots[j]? = some slot →
      (MatchesAt slots (mpidr &&& mpidrAffinityMask) (0 + j) ↔
        HasAffinity slot (mpidr &&& mpidrAffinityMask)) := by
    intro j slot hj
    rw [Nat.zero_add]
    exact matchesAt_iff hj
  obtain ⟨r, hrun, hr⟩ := findSlot_sole address hslots hmatches seen_zero
  rw [Nat.zero_add] at hr
  rw [findSlotByAffinity, if_neg (not_lt.mpr hcount), hrun, ← hr i]
  exact ⟨Except.ok.inj, congrArg Except.ok⟩

end Lookup

end Tvisor.Pcpu
