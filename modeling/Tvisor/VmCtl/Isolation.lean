/-
# Tvisor.VmCtl.Isolation -- a guest reaches its own memory and its devices

The stage-2 tables of a VM are raw pages of memory, grown one page at a time in the middle of a
mapping loop, on pages that other uses have left full of words. `guest_memory_isolated` says what
they can hold all the same, after any calls: each leaf translates to the page of the one entry that
covers its IPA, or to a device page that was passed for it; a leaf stored by `map` leads to a page
that is allocated to the VM and is no table; tables are tracked pages, each linked once.

A session records what the statement talks about besides the state: the arguments of the device
calls made so far, and for each IPA which kind of call stored the leaf it has. The record is made
from outside, by comparing the leaves before and after a call.
-/
import Tvisor.VmCtl.Calls

namespace Tvisor.VmCtl

open Fallible GuestStage2 Mm PageAllocator State
open El2Stage1 (route)

/-- The calls on a VM. -/
inductive Op where
  | call (c : Call)
  | releaseAll
  deriving DecidableEq, Repr

/-- The two calls that store leaves. -/
inductive Source where
  | map
  | device
  deriving DecidableEq, Repr

def Call.source : Call → Option Source
  | .vmMemAlloc _ _ _ => none
  | .map _ _ _ _ _ => some .map
  | .mapExternalDevice _ _ _ _ => some .device

/-- The arguments of a device call. -/
structure DeviceCall where
  ipa : Nat
  pa : Nat
  size : Nat

def Call.device : Call → List DeviceCall
  | .mapExternalDevice _ ipa pa size => [⟨ipa, pa, size⟩]
  | _ => []

structure Session where
  state : State
  devices : List DeviceCall
  source : Nat → Option Source

def Session.step (s : Session) : Op → Session
  | .call c =>
      { state := s.state.call c
        devices := c.device ++ s.devices
        source := fun ipa =>
          if (s.state.call c).leafWord ipa = s.state.leafWord ipa then s.source ipa
          else c.source }
  | .releaseAll => { s with state := (releaseAll s.state).2, source := fun _ => none }

def session (memory : Memory) (pages : GlobalPageAllocator) (ops : List Op) : Session :=
  ops.foldl Session.step ⟨fresh memory pages, [], fun _ => none⟩

/-- Some device call so far passed the physical page for the IPA page. -/
def Passed (devices : List DeviceCall) (ipaPage paPage : Nat) : Prop :=
  ∃ d ∈ devices, DevicePage d.ipa d.pa d.size ipaPage paPage

/-! ## The invariant of a session -/

variable {s : State}

structure Session.Inv (s : Session) : Prop where
  wf : s.state.Wf
  leaves : ∀ ipa, ipa < 2 ^ 39 → ∀ w, s.state.leafWord ipa = some w →
    (s.source ipa = some .map ∧
      FromEntry s.state.vmMem (4096 * (ipa / 4096)) (w &&& addressMask)) ∨
    (s.source ipa = some .device ∧ Passed s.devices (4096 * (ipa / 4096)) (w &&& addressMask))

theorem FromEntry.mono {t : State} {allowed : Nat → Nat → Prop} (he : Effects allowed s t)
    {ipa pa : Nat} (h : FromEntry s.vmMem ipa pa) : FromEntry t.vmMem ipa pa := by
  obtain ⟨r, hr, hrest⟩ := h
  exact ⟨r, he.keeps_ipaPa hr, hrest⟩

/-- Without entries there is no root, and so no leaf. -/
theorem leafWord_of_empty (h : s.vmMem = []) (ipa : Nat) : s.leafWord ipa = none := by
  unfold leafWord rootPage tablePages tableAddresses findUsage
  rw [h]
  rfl

theorem Session.Inv.call {s : Session} (h : s.Inv) (c : Call) : (s.step (.call c)).Inv := by
  have heffects := call_effects h.wf c
  refine ⟨heffects.wf h.wf, ?_⟩
  intro ipa hipa w hw
  show (ite _ _ _ = _ ∧ _) ∨ (ite _ _ _ = _ ∧ _)
  rcases heffects.leaves h.wf hipa with hsame | ⟨hnone, w', hw', hallowed⟩
  · -- an old leaf: its entry is still there, and the record of devices only grows
    rw [if_pos hsame]
    have hold : s.state.leafWord ipa = some w := hsame.symm.trans hw
    rcases h.leaves ipa hipa w hold with ⟨hsource, hentry⟩ | ⟨hsource, d, hd, hpage⟩
    · exact .inl ⟨hsource, hentry.mono heffects⟩
    · exact .inr ⟨hsource, d, List.mem_append_right _ hd, hpage⟩
  · -- a new leaf is one the call was allowed to store
    have hne : (s.state.call c).leafWord ipa ≠ s.state.leafWord ipa := by
      rw [hw', hnone]
      exact Option.some_ne_none w'
    rw [if_neg hne]
    have hww : w' = w := Option.some.inj (hw'.symm.trans hw)
    subst hww
    rcases c with ⟨usage, ipa', size⟩ | ⟨usage, memType, access, exec, paBits⟩ |
      ⟨mmfr0, ipa', pa', size⟩
    · exact absurd hallowed id
    · exact .inl ⟨rfl, FromEntry.mono heffects hallowed⟩
    · exact .inr ⟨rfl, ⟨ipa', pa', size⟩, List.mem_cons_self, hallowed⟩

theorem releaseAll_wf (s : State) : (releaseAll s).2.Wf := fresh_wf _ _

theorem Session.Inv.step {s : Session} (h : s.Inv) (op : Op) : (s.step op).Inv := by
  rcases op with c | _
  · exact h.call c
  · refine ⟨releaseAll_wf s.state, ?_⟩
    intro ipa _ w hw
    have hnone : (s.step .releaseAll).state.leafWord ipa = none := leafWord_of_empty rfl ipa
    rw [hnone] at hw
    cases hw

theorem session_inv (memory : Memory) (pages : GlobalPageAllocator) (ops : List Op) :
    (session memory pages ops).Inv := by
  refine foldl_invariant Session.step Session.Inv (fun _ op h => h.step op) ops
    ⟨fresh_wf memory pages, ?_⟩
  intro ipa _ w hw
  rw [leafWord_of_empty rfl] at hw
  cases hw

/-! ## What the invariant says -/

theorem State.Wf.apart_of_ne (h : s.Wf) {m m' : VmMem} (hm : m ∈ s.vmMem) (hm' : m' ∈ s.vmMem)
    (hne : m ≠ m') (ipa : Nat) : ¬ (m.InIpa ipa ∧ m'.InIpa ipa) := by
  have hsymm : Std.Symm fun m m' : VmMem => ∀ ipa, ¬ (m.InIpa ipa ∧ m'.InIpa ipa) :=
    ⟨fun _ _ h ipa hin => h ipa hin.symm⟩
  exact h.apart.forall hm hm' hne ipa

/-- The entry that covers an IPA is the only one. -/
theorem State.Wf.entry_unique (h : s.Wf) {r r' : IpaPaRegion} {ipa : Nat}
    (hr : VmMem.ipaPa r ∈ s.vmMem) (hr' : VmMem.ipaPa r' ∈ s.vmMem)
    (hin : (VmMem.ipaPa r).InIpa ipa) (hin' : (VmMem.ipaPa r').InIpa ipa) : r' = r := by
  by_contra hne
  exact h.apart_of_ne hr' hr (fun heq => hne (VmMem.ipaPa.inj heq)) ipa ⟨hin', hin⟩

/-- The pages of an entry with an IPA hold no table. -/
theorem State.Wf.ipaPa_not_table (h : s.Wf) {r : IpaPaRegion} (hr : VmMem.ipaPa r ∈ s.vmMem)
    {p : Nat} (hp : p ∈ (VmMem.ipaPa r).pageList) :
    p ∉ tablePages s.vmMem := by
  intro htable
  obtain ⟨a, ha, rfl⟩ := List.mem_map.mp htable
  obtain ⟨r', hr', -, har'⟩ := mem_tableAddresses ha
  have hdisjoint := (List.nodup_flatMap.mp h.nodup).2
  have hsymm : Std.Symm fun m m' : VmMem => List.Disjoint m.pageList m'.pageList :=
    ⟨fun _ _ h => h.symm⟩
  exact hdisjoint.forall hr hr' (fun heq => nomatch heq) hp (List.mem_map_of_mem har')

/-- The physical page of a leaf that comes from an entry is a page of that entry. -/
theorem State.Wf.fromEntry_page (h : s.Wf) {ipa pa : Nat} (halign : ipa % 4096 = 0)
    (hfrom : FromEntry s.vmMem ipa pa) :
    ∃ r, VmMem.ipaPa r ∈ s.vmMem ∧ (VmMem.ipaPa r).InIpa ipa ∧ pa = r.pa + (ipa - r.ipa) ∧
      pa / 4096 ∈ (VmMem.ipaPa r).pageList := by
  obtain ⟨r, hr, h1, h2, rfl⟩ := hfrom
  obtain ⟨-, hipa, hsize, -, -, hpa⟩ := h.entries _ hr
  refine ⟨r, hr, ⟨h1, h2⟩, rfl, List.mem_range'_1.mpr ⟨?_, ?_⟩⟩
  · omega
  · omega

/-- Guest memory isolation, read off a session. -/
structure Isolated (s : Session) : Prop where
  /-- A leaf translates to the same offset of the one entry that covers its IPA, or to a device
  page passed for it. -/
  leaf_owned : ∀ ipa, ipa < 2 ^ 39 → ∀ w, s.state.leafWord ipa = some w →
    (∃ r, VmMem.ipaPa r ∈ s.state.vmMem ∧ (VmMem.ipaPa r).InIpa ipa ∧
      (∀ r', VmMem.ipaPa r' ∈ s.state.vmMem → (VmMem.ipaPa r').InIpa ipa → r' = r) ∧
      w &&& addressMask = r.pa + (4096 * (ipa / 4096) - r.ipa)) ∨
    Passed s.devices (4096 * (ipa / 4096)) (w &&& addressMask)
  /-- A leaf stored by `map` leads to a page of the VM that is no table. -/
  map_leaf : ∀ ipa, ipa < 2 ^ 39 → ∀ w, s.state.leafWord ipa = some w →
    s.source ipa = some .map →
    (w &&& addressMask) / 4096 ∉ tablePages s.state.vmMem ∧
      (w &&& addressMask) / 4096 ∈ trackedPages s.state.vmMem ∧
      s.state.pages.allocator.stateAt ((w &&& addressMask) / 4096) = .inUse
  /-- Some call stored each leaf. -/
  leaf_sourced : ∀ ipa, ipa < 2 ^ 39 → ∀ w, s.state.leafWord ipa = some w →
    s.source ipa = some .map ∨ s.source ipa = some .device
  /-- The tables are pages of the page-table entry. -/
  table_tracked : ∀ path t, s.state.reach path = some t → ∃ r, VmMem.paOnly r ∈ s.state.vmMem ∧
    r.usage = .guestStage2PageTable ∧ 4096 * t ∈ r.pa
  /-- Two links to one table are the same link. -/
  table_once : ∀ path path' t t' i i' c, s.state.reach path = some t →
    s.state.reach path' = some t' →
    decode path.length (s.state.memory.tables t i) = .table c →
    decode path'.length (s.state.memory.tables t' i') = .table c → t = t' ∧ i = i'
  /-- Nothing links the root. -/
  root_unlinked : ∀ path t i root, s.state.rootPage = some root → s.state.reach path = some t →
    decode path.length (s.state.memory.tables t i) ≠ .table root

/-- A link of the tables extends a path. -/
theorem reach_link {root : Nat} (hroot : s.rootPage = some root) {path : List (Fin 512)}
    {t c : Nat} {i : Fin 512} (hp : s.reach path = some t)
    (hlink : decode path.length (s.memory.tables t i) = .table c) :
    Radix.follow decode s.memory.tables 0 root (path ++ [i]) = some c := by
  rw [reach_eq hroot] at hp
  exact Radix.follow_concat_eq_some.mpr ⟨t, hp, hlink⟩

theorem Session.Inv.isolated {s : Session} (h : s.Inv) : Isolated s where
  leaf_owned := by
    intro ipa hipa w hw
    rcases h.leaves ipa hipa w hw with ⟨-, hentry⟩ | ⟨-, hpassed⟩
    · left
      obtain ⟨r, hr, hin, hpa, -⟩ := h.wf.fromEntry_page (Nat.mul_mod_right _ _) hentry
      obtain ⟨-, halign, hsize, -⟩ := h.wf.entries _ hr
      have hin' : (VmMem.ipaPa r).InIpa ipa := by
        obtain ⟨h1, h2⟩ := hin
        exact ⟨by omega, by omega⟩
      exact ⟨r, hr, hin', fun r' hr' hcover => h.wf.entry_unique hr hr' hin' hcover, hpa⟩
    · exact .inr hpassed
  map_leaf := by
    intro ipa hipa w hw hsource
    rcases h.leaves ipa hipa w hw with ⟨-, hentry⟩ | ⟨hdevice, -⟩
    · obtain ⟨r, hr, -, -, hpage⟩ := h.wf.fromEntry_page (Nat.mul_mod_right _ _) hentry
      have htracked : (w &&& addressMask) / 4096 ∈ trackedPages s.state.vmMem :=
        List.mem_flatMap.mpr ⟨_, hr, hpage⟩
      obtain ⟨hmanaged, hused⟩ := h.wf.owned _ htracked
      exact ⟨h.wf.ipaPa_not_table hr hpage, htracked, stateAt_eq_inUse.mpr
        ⟨PageBitmap.mem_pageSet.mp hmanaged, PageBitmap.mem_pageSet.mp hused⟩⟩
    · rw [hsource] at hdevice
      cases hdevice
  leaf_sourced := fun ipa hipa w hw => (h.leaves ipa hipa w hw).imp And.left And.left
  table_tracked := by
    intro path t hp
    obtain ⟨a, ha, rfl⟩ := List.mem_map.mp (h.wf.reach_tracked path t hp)
    obtain ⟨r, hr, husage, har⟩ := mem_tableAddresses ha
    have halign : a % 4096 = 0 := (h.wf.entries _ hr).2.2 a har
    have hexact : 4096 * (a / 4096) = a := by omega
    exact ⟨r, hr, husage, hexact.symm ▸ har⟩
  table_once := by
    intro path path' t t' i i' c hp hp' hlink hlink'
    obtain ⟨root, hroot, -⟩ := reach_some hp
    have hpath := (h.wf.tree root hroot).inj (reach_link hroot hp hlink)
      (reach_link hroot hp' hlink')
    obtain ⟨rfl, hi⟩ := List.append_inj' hpath rfl
    rw [hp] at hp'
    exact ⟨Option.some.inj hp', List.singleton_inj.mp hi⟩
  root_unlinked := by
    intro path t i root hroot hp hlink
    have hpath := (h.wf.tree root hroot).inj (reach_link hroot hp hlink)
      (show Radix.follow decode s.state.memory.tables 0 root [] = some root from rfl)
    exact absurd hpath (by simp)

/-- Guest memory isolation, from any memory and any allocator, after any calls, those that fail
half-way included. -/
theorem guest_memory_isolated (memory : Memory) (pages : GlobalPageAllocator) (ops : List Op) :
    Isolated (session memory pages ops) :=
  (session_inv memory pages ops).isolated

end Tvisor.VmCtl
