/-
# Tvisor.VmCtl.Mapping -- what `map` does to the leaves of a VM

A stage-2 table is read here as a partial function from IPA pages to leaf words. `mapL3Page` extends
that function at one page or leaves it alone, the tables it grows on the way not being visible in
it; so the loop over a range extends it on the range, and stops early only by stopping to extend.
A page that already has the word is passed over without a change to the state, which is why a
mapping can be repeated.
-/
import Tvisor.VmCtl.Isolation

namespace Tvisor.VmCtl

open Fallible Page Words GuestStage2 Mm PageAllocator State
open El2Stage1 (route TranslationError)

/-! ## Extending the leaves -/

variable {ipa : Nat}

/-- Every leaf stays, and the pages that get one get what was requested for them. -/
def Extends (request : Nat → Nat → Prop) (s t : State) : Prop :=
  ∀ ipa, ipa < 2 ^ 39 → t.leafWord ipa = s.leafWord ipa ∨
    s.leafWord ipa = none ∧ ∃ w, t.leafWord ipa = some w ∧ request (ipa / 4096) w

namespace Extends

variable {request : Nat → Nat → Prop} {s t u : State}

theorem refl (s : State) : Extends request s s := fun _ _ => .inl rfl

theorem trans (h : Extends request s t) (h' : Extends request t u) : Extends request s u := by
  intro ipa hipa
  rcases h ipa hipa with hsame | ⟨hnone, w, hw, hrequest⟩
  · rw [← hsame]
    exact h' ipa hipa
  · rcases h' ipa hipa with hsame' | ⟨hnone', -⟩
    · exact .inr ⟨hnone, w, hsame'.trans hw, hrequest⟩
    · rw [hw] at hnone'
      cases hnone'

theorem mono {request' : Nat → Nat → Prop} (h : Extends request s t)
    (himp : ∀ page w, request page w → request' page w) : Extends request' s t := by
  intro ipa hipa
  rcases h ipa hipa with hsame | ⟨hnone, w, hw, hrequest⟩
  · exact .inl hsame
  · exact .inr ⟨hnone, w, hw, himp _ _ hrequest⟩

theorem keeps (h : Extends request s t) {w : Nat} (hipa : ipa < 2 ^ 39)
    (hw : s.leafWord ipa = some w) : t.leafWord ipa = some w := by
  rcases h ipa hipa with hsame | ⟨hnone, -⟩
  · exact hsame.trans hw
  · rw [hw] at hnone
    cases hnone

/-- A page that nothing was requested for is left alone. -/
theorem leafWord_eq (h : Extends request s t) (hipa : ipa < 2 ^ 39)
    (hno : ∀ w, ¬ request (ipa / 4096) w) : t.leafWord ipa = s.leafWord ipa := by
  rcases h ipa hipa with hsame | ⟨-, w, -, hrequest⟩
  · exact hsame
  · exact absurd hrequest (hno w)

end Extends

/-- Growing tables is not seen in the leaves. -/
theorem Effects.leafWord_eq {s t : State} (h : s.Wf) (he : Effects (fun _ _ => False) s t)
    (hipa : ipa < 2 ^ 39) : t.leafWord ipa = s.leafWord ipa := by
  rcases he.leaves h hipa with hsame | ⟨-, w, -, hfalse⟩
  · exact hsame
  · exact hfalse.elim

/-! ## One page -/

section Page

variable {s : State} (memType : GuestStage2MemoryType) (access : GuestStage2Access)
  (exec : GuestStage2Exec)

/-- Mapping a page extends the leaves at that page, and has put the descriptor there if it
succeeds. -/
theorem mapL3Page_extends (h : s.Wf) {pa : Nat} (hipa : ipa < 2 ^ 39) (hpa : pa < 2 ^ 48)
    (hpaAlign : pa % 4096 = 0) :
    Extends (fun page w => page = ipa / 4096 ∧ w = encodeL3PageDescriptor pa memType access exec) s
        (Fallible.state ((mapL3Page ipa pa memType access exec).run s)) ∧
      ∀ s', (mapL3Page ipa pa memType access exec).run s = .ok () s' →
        s'.leafWord ipa = some (encodeL3PageDescriptor pa memType access exec) := by
  have hvalid := (encodeL3PageDescriptor_fields hpaAlign hpa memType access exec).1
  generalize hdesc : encodeL3PageDescriptor pa memType access exec = desc at hvalid ⊢
  rcases mapL3Page_cases (fun _ _ => False) memType access exec h ipa pa with
    ⟨t, s1, heff, hreach, hrun⟩ | ⟨e, s1, heff, hrun⟩
  · rw [hrun, hdesc]
    have h1 := heff.wf h
    have hslot := leafWord_of_reach hreach
    rcases insertLeaf_cases s1 t (tableIndex l3Shift ipa) desc with
      ⟨hold, hins⟩ | ⟨hold, hsame, hins⟩ | ⟨e, hins⟩
    · -- the slot was empty
      rw [if_pos hold] at hslot
      rw [hins]
      refine ⟨?_, ?_⟩
      · intro a ha
        rw [Fallible.state_ok, h1.leafWord_setEntry hreach hipa hvalid ha]
        by_cases hpage : a / 4096 = ipa / 4096
        · right
          rw [if_pos hpage, ← heff.leafWord_eq h ha, leafWord_page hipa ha hpage]
          exact ⟨hslot, desc, rfl, hpage, rfl⟩
        · rw [if_neg hpage]
          exact .inl (heff.leafWord_eq h ha)
      · intro s' hok
        cases hok
        rw [h1.leafWord_setEntry hreach hipa hvalid hipa, if_pos rfl]
    · -- it held this very word
      rw [if_neg hold, hsame] at hslot
      rw [hins]
      refine ⟨fun a ha => .inl (heff.leafWord_eq h ha), ?_⟩
      intro s' hok
      cases hok
      exact hslot
    · rw [hins]
      exact ⟨fun a ha => .inl (heff.leafWord_eq h ha), nofun⟩
  · rw [hrun]
    exact ⟨fun a ha => .inl (heff.leafWord_eq h ha), nofun⟩

/-- The address of the root is the address of the root page. -/
theorem root_of_rootPage (h : s.Wf) {root : Nat} (hroot : s.rootPage = some root) :
    guestStage2PageTableRoot s.vmMem = some (4096 * root) := by
  unfold rootPage tablePages at hroot
  rw [List.head?_map, Option.map_eq_some_iff] at hroot
  obtain ⟨a, ha, rfl⟩ := hroot
  obtain ⟨r, hr, -, hmem⟩ := mem_tableAddresses (List.mem_of_head? ha)
  have halign : a % 4096 = 0 := (h.entries _ hr).2.2 a hmem
  rw [root_eq_head, ha]
  exact congrArg some (by omega)

/-- A leaf is found along two links. -/
theorem leafWord_eq_some {w : Nat} (hw : s.leafWord ipa = some w) :
    ∃ root t1 t2, s.rootPage = some root ∧
      decode 0 (s.memory.tables root (tableIndex l1Shift ipa)) = .table t1 ∧
      decode 1 (s.memory.tables t1 (tableIndex l2Shift ipa)) = .table t2 ∧
      s.memory.tables t2 (tableIndex l3Shift ipa) = w ∧ w &&& valid ≠ 0 := by
  obtain ⟨root, hroot, hw⟩ := Option.bind_eq_some_iff.mp hw
  obtain ⟨⟨d, v⟩, hlookup, rfl⟩ := Option.map_eq_some_iff.mp hw
  obtain ⟨p, i, rest, t2, hroute, hd, hfollow, hleaf⟩ := Radix.lookup_eq_some.mp hlookup
  obtain ⟨hdepth, rfl, hvalid⟩ := decode_eq_leaf hleaf
  -- tables stand on the first two levels, so the leaf is at the end of the route
  have hlength : p.length + (rest.length + 1) = 3 := by
    simpa using (congrArg List.length hroute).symm
  have hsplit : route 2 ipa ++ [tableIndex l3Shift ipa] = p ++ i :: rest := hroute
  obtain ⟨rfl, htail⟩ := List.append_inj hsplit (by rw [El2Stage1.length_route]; omega)
  cases htail
  have hfollow2 : Radix.follow decode s.memory.tables 0 root
      (route 1 ipa ++ [tableIndex l2Shift ipa]) = some t2 := hfollow
  obtain ⟨t1, hfollow1, hlink2⟩ := Radix.follow_concat_eq_some.mp hfollow2
  have hfollow1' : Radix.follow decode s.memory.tables 0 root
      ([] ++ [tableIndex l1Shift ipa]) = some t1 := hfollow1
  obtain ⟨root', hfollow0, hlink1⟩ := Radix.follow_concat_eq_some.mp hfollow1'
  cases hfollow0
  exact ⟨root, t1, t2, hroot, hlink1, hlink2, rfl, hvalid⟩

/-- A page that has its leaf is mapped again without a trace. -/
theorem mapL3Page_again (h : s.Wf) {pa : Nat}
    (hleaf : s.leafWord ipa = some (encodeL3PageDescriptor pa memType access exec)) :
    (mapL3Page ipa pa memType access exec).run s = .ok () s := by
  obtain ⟨root, t1, t2, hroot, hlink1, hlink2, hword, hvalid⟩ := leafWord_eq_some hleaf
  unfold mapL3Page
  simp only [EStateM.run_bind, EStateM.run_get, root_of_rootPage h hroot, run_orThrow_some,
    nextTable_linked hlink1, nextTable_linked hlink2]
  rcases insertLeaf_cases s t2 (tableIndex l3Shift ipa)
    (encodeL3PageDescriptor pa memType access exec) with ⟨hold, -⟩ | ⟨-, -, hins⟩ | ⟨hne, -⟩
  · rw [hword] at hold
    exact absurd hold hvalid
  · exact hins
  · exact absurd hword hne

end Page

/-! ## A range of pages -/

variable {s' : State}

section Range

variable {s : State} {pa count : Nat} (memType : GuestStage2MemoryType)
  (access : GuestStage2Access) (exec : GuestStage2Exec)

/-- The words that a call for a range asks for. -/
def Requested (ipa pa count : Nat) (memType : GuestStage2MemoryType) (access : GuestStage2Access)
    (exec : GuestStage2Exec) (page w : Nat) : Prop :=
  ∃ k, k < count ∧ page = ipa / 4096 + k ∧
    w = encodeL3PageDescriptor (pa + k * 4096) memType access exec

theorem mapL3Page_wf (h : s.Wf) (hin : InReach ipa pa count) {k : Nat} (hk : k < count) :
    (Fallible.state ((mapL3Page (ipa + k * pageSize) (pa + k * pageSize) memType access exec).run
      s)).Wf := by
  obtain ⟨hipa, halign, hpa, hpaAlign⟩ := hin.page hk
  exact (show Effects (fun _ _ => True) s _ from
    mapL3Page_effects h hipa halign hpa hpaAlign trivial).wf h

/-- One round of the loop. -/
theorem mapL3Page_round (h : s.Wf) (hin : InReach ipa pa count) {k : Nat} (hk : k < count) :
    Extends (Requested ipa pa count memType access exec) s (Fallible.state
      ((mapL3Page (ipa + k * pageSize) (pa + k * pageSize) memType access exec).run s)) ∧
    ∀ s', (mapL3Page (ipa + k * pageSize) (pa + k * pageSize) memType access exec).run s =
      .ok () s' →
      s'.leafWord (ipa + k * 4096) =
        some (encodeL3PageDescriptor (pa + k * 4096) memType access exec) := by
  obtain ⟨hipa, -, hpa, hpaAlign⟩ := hin.page hk
  obtain ⟨hext, hok⟩ := mapL3Page_extends memType access exec h hipa hpa hpaAlign
  refine ⟨hext.mono ?_, hok⟩
  rintro page w ⟨rfl, rfl⟩
  exact ⟨k, hk, Nat.add_mul_div_right _ _ (by decide), rfl⟩

/-- However the loop ends, the leaves have been extended by requested words. -/
theorem mapRange_extends (h : s.Wf) (hin : InReach ipa pa count) :
    Extends (Requested ipa pa count memType access exec) s
      (Fallible.state ((mapRange ipa pa count memType access exec).run s)) := by
  refine (state_forM (R := fun s t => s.Wf → t.Wf ∧
    Extends (Requested ipa pa count memType access exec) s t) ?_ ?_ ?_ s h).2
  · exact fun s hs => ⟨hs, Extends.refl s⟩
  · intro s t u hst htu hs
    obtain ⟨ht, hext⟩ := hst hs
    obtain ⟨hu, hext'⟩ := htu ht
    exact ⟨hu, hext.trans hext'⟩
  · intro k hk s hs
    have hk := List.mem_range.mp hk
    exact ⟨mapL3Page_wf memType access exec hs hin hk,
      (mapL3Page_round memType access exec hs hin hk).1⟩

/-- If it succeeds, every page of the range has its word. -/
theorem mapRange_ok (h : s.Wf) (hin : InReach ipa pa count)
    (hrun : (mapRange ipa pa count memType access exec).run s = .ok () s') :
    s'.Wf ∧ ∀ k, k < count → s'.leafWord (ipa + k * 4096) =
      some (encodeL3PageDescriptor (pa + k * 4096) memType access exec) := by
  have hbody : ∀ k ∈ List.range count, ∀ s t, s.Wf →
      (mapL3Page (ipa + k * pageSize) (pa + k * pageSize) memType access exec).run s = .ok () t →
      t.Wf ∧ (k < count → t.leafWord (ipa + k * 4096) =
          some (encodeL3PageDescriptor (pa + k * 4096) memType access exec)) ∧
        ∀ j, (j < count → s.leafWord (ipa + j * 4096) =
            some (encodeL3PageDescriptor (pa + j * 4096) memType access exec)) →
          j < count → t.leafWord (ipa + j * 4096) =
            some (encodeL3PageDescriptor (pa + j * 4096) memType access exec) := by
    intro k hk s t hs hstep
    have hk := List.mem_range.mp hk
    have hwf := mapL3Page_wf memType access exec hs hin hk
    obtain ⟨hext, hok⟩ := mapL3Page_round memType access exec hs hin hk
    rw [hstep] at hwf hext
    refine ⟨hwf, fun _ => hok t hstep, ?_⟩
    intro j hj hjlt
    have hjIpa : ipa + j * 4096 < 2 ^ 39 := by
      have := hin.ipaEnd
      omega
    exact hext.keeps hjIpa (hj hjlt)
  obtain ⟨hs', hall, -⟩ := forM_establishes hbody h hrun
  exact ⟨hs', fun k hk => hall k (List.mem_range.mpr hk) hk⟩

/-- If every page of the range has its word, the loop does nothing. -/
theorem mapRange_again (h : s.Wf)
    (hall : ∀ k, k < count → s.leafWord (ipa + k * 4096) =
      some (encodeL3PageDescriptor (pa + k * 4096) memType access exec)) :
    (mapRange ipa pa count memType access exec).run s = .ok () s := by
  refine run_forM_idle fun k hk => ?_
  exact mapL3Page_again memType access exec h (hall k (List.mem_range.mp hk))

/-- The leaves after a loop that succeeded, as a function of those before it. -/
theorem mapRange_leafWord (h : s.Wf) (hin : InReach ipa pa count)
    (hrun : (mapRange ipa pa count memType access exec).run s = .ok () s') {a : Nat}
    (ha : a < 2 ^ 39) :
    s'.leafWord a =
      if ipa ≤ a ∧ a < ipa + count * 4096 then
        some (encodeL3PageDescriptor (pa + (4096 * (a / 4096) - ipa)) memType access exec)
      else s.leafWord a := by
  have halign := hin.ipaAlign
  have hipaEnd := hin.ipaEnd
  by_cases hrange : ipa ≤ a ∧ a < ipa + count * 4096
  · obtain ⟨k, hk, hpage⟩ : ∃ k, k < count ∧ a / 4096 = ipa / 4096 + k :=
      ⟨a / 4096 - ipa / 4096, by omega, by omega⟩
    have hleaf := (mapRange_ok memType access exec h hin hrun).2 k hk
    have hoffset : 4096 * (a / 4096) - ipa = k * 4096 := by omega
    rw [if_pos hrange, hoffset, ← hleaf]
    exact leafWord_page (by omega) ha (by omega)
  · have hext := mapRange_extends memType access exec h hin
    rw [hrun] at hext
    rw [if_neg hrange]
    refine hext.leafWord_eq ha ?_
    rintro w ⟨k, hk, hpage, -⟩
    exact hrange ⟨by omega, by omega⟩

end Range

/-! ## The call -/

/-- The leaf that an entry asks for at an IPA of its range. -/
def IpaPaRegion.leaf (r : IpaPaRegion) (memType : GuestStage2MemoryType)
    (access : GuestStage2Access) (exec : GuestStage2Exec) (ipa : Nat) : Nat :=
  encodeL3PageDescriptor (r.pa + (4096 * (ipa / 4096) - r.ipa)) memType access exec

/-- What `map` does to a VM. -/
structure MapExact (s : State) (usage : VmMemUsage) (memType : GuestStage2MemoryType)
    (access : GuestStage2Access) (exec : GuestStage2Exec) (paBits : Nat) : Prop where
  /-- On success the pages of the entry have their leaves and all others keep theirs. -/
  mapped : ∀ s', (mapWithPaBits usage memType access exec paBits).run s = .ok () s' →
    ∃ r, VmMem.ipaPa r ∈ s.vmMem ∧ r.usage = usage ∧ ∀ ipa, ipa < 2 ^ 39 →
      s'.leafWord ipa =
        if r.ipa ≤ ipa ∧ ipa < r.ipa + r.size then some (r.leaf memType access exec ipa)
        else s.leafWord ipa
  /-- On failure a leaf that was there is kept, and a new one is one of the entry's. -/
  failed : ∀ e s', (mapWithPaBits usage memType access exec paBits).run s = .error e s' →
    ∀ ipa, ipa < 2 ^ 39 → s'.leafWord ipa = s.leafWord ipa ∨
      s.leafWord ipa = none ∧ ∃ r, VmMem.ipaPa r ∈ s.vmMem ∧ r.usage = usage ∧
        r.ipa ≤ ipa ∧ ipa < r.ipa + r.size ∧ s'.leafWord ipa = some (r.leaf memType access exec ipa)
  /-- A second call succeeds and changes nothing at all. -/
  repeated : ∀ s', (mapWithPaBits usage memType access exec paBits).run s = .ok () s' →
    (mapWithPaBits usage memType access exec paBits).run s' = .ok () s'
  /-- No leaf appears in a guard. -/
  guards : ∀ r, VmMem.ipaOnly r ∈ s.vmMem → ∀ ipa, r.base ≤ ipa → ipa < r.base + r.size →
    (Fallible.state ((mapWithPaBits usage memType access exec paBits).run s)).leafWord ipa =
      s.leafWord ipa

section Call

variable {s : State} {usage : VmMemUsage} (memType : GuestStage2MemoryType)
  (access : GuestStage2Access) (exec : GuestStage2Exec) (paBits : Nat)

/-- Usages differ, so an entry is found under its own. -/
theorem State.Wf.findUsage_eq (h : s.Wf) {m : VmMem} (hm : m ∈ s.vmMem) :
    findUsage s.vmMem m.usage = some m := by
  rcases hfind : findUsage s.vmMem m.usage with _ | m'
  · refine absurd (List.find?_eq_none.mp hfind m hm) ?_
    simp
  · obtain ⟨hm', husage⟩ := findUsage_some hfind
    exact congrArg some (List.inj_on_of_nodup_map h.usages hm' hm husage)

/-- The loop of a successful call. -/
theorem mapWithPaBits_ok (h : s.Wf)
    (hrun : (mapWithPaBits usage memType access exec paBits).run s = .ok () s') :
    ∃ r, findUsage s.vmMem usage = some (.ipaPa r) ∧
      checkBounds (r.ipa + r.size) (r.pa + r.size) paBits = .ok () ∧
      (mapRange r.ipa r.pa (r.size / 4096) memType access exec).run s = .ok () s' := by
  by_cases hentry : ∃ r, findUsage s.vmMem usage = some (.ipaPa r)
  · obtain ⟨r, hfind⟩ := hentry
    rw [mapWithPaBits_eq h hfind] at hrun
    split at hrun
    · rename_i hbounds
      exact ⟨r, hfind, hbounds, hrun⟩
    · cases hrun
  · rw [mapWithPaBits_refuses (not_exists.mp hentry)] at hrun
    cases hrun

/-- However the call ends, new leaves are leaves of the entry. -/
theorem mapWithPaBits_extends (h : s.Wf) (hipa : ipa < 2 ^ 39)
    (hs' : Fallible.state ((mapWithPaBits usage memType access exec paBits).run s) = s') :
    s'.leafWord ipa = s.leafWord ipa ∨
      s.leafWord ipa = none ∧ ∃ r, VmMem.ipaPa r ∈ s.vmMem ∧ r.usage = usage ∧
        r.ipa ≤ ipa ∧ ipa < r.ipa + r.size ∧
        s'.leafWord ipa = some (r.leaf memType access exec ipa) := by
  subst hs'
  by_cases hentry : ∃ r, findUsage s.vmMem usage = some (.ipaPa r)
  · obtain ⟨r, hfind⟩ := hentry
    obtain ⟨hr, husage⟩ := findUsage_some hfind
    obtain ⟨-, halign, hsize, -⟩ := h.entries _ hr
    rw [mapWithPaBits_eq h hfind]
    rcases checkBounds (r.ipa + r.size) (r.pa + r.size) paBits with e | u
    · exact .inl rfl
    · rcases mapRange_extends memType access exec h (h.inReach hr).1 ipa hipa with
        hsame | ⟨hnone, w, hw, k, hk, hpage, rfl⟩
      · exact .inl hsame
      · have hoffset : 4096 * (ipa / 4096) - r.ipa = k * 4096 := by omega
        refine .inr ⟨hnone, r, hr, husage, by omega, by omega, ?_⟩
        rw [IpaPaRegion.leaf, hoffset]
        exact hw
  · rw [mapWithPaBits_refuses (not_exists.mp hentry)]
    exact .inl rfl

theorem mapWithPaBits_mapped (h : s.Wf)
    (hrun : (mapWithPaBits usage memType access exec paBits).run s = .ok () s') :
    ∃ r, VmMem.ipaPa r ∈ s.vmMem ∧ r.usage = usage ∧ ∀ ipa, ipa < 2 ^ 39 →
      s'.leafWord ipa =
        if r.ipa ≤ ipa ∧ ipa < r.ipa + r.size then some (r.leaf memType access exec ipa)
        else s.leafWord ipa := by
  obtain ⟨r, hfind, -, hloop⟩ := mapWithPaBits_ok memType access exec paBits h hrun
  obtain ⟨hr, husage⟩ := findUsage_some hfind
  obtain ⟨-, -, hsize, -⟩ := h.entries _ hr
  have hcount : r.size / 4096 * 4096 = r.size := by omega
  refine ⟨r, hr, husage, fun ipa hipa => ?_⟩
  rw [mapRange_leafWord memType access exec h (h.inReach hr).1 hloop hipa, hcount]
  rfl

/-- The entry is still there and all its pages have their leaves, so the second call finds nothing
to do. -/
theorem mapWithPaBits_repeated (h : s.Wf)
    (hrun : (mapWithPaBits usage memType access exec paBits).run s = .ok () s') :
    (mapWithPaBits usage memType access exec paBits).run s' = .ok () s' := by
  obtain ⟨r, hfind, hbounds, hloop⟩ := mapWithPaBits_ok memType access exec paBits h hrun
  obtain ⟨hr, husage⟩ := findUsage_some hfind
  obtain ⟨hs', hall⟩ := mapRange_ok memType access exec h (h.inReach hr).1 hloop
  have heffects := mapWithPaBits_effects memType access exec h usage paBits
  rw [hrun] at heffects
  have hfind' : findUsage s'.vmMem usage = some (.ipaPa r) :=
    husage ▸ hs'.findUsage_eq (heffects.keeps_ipaPa hr)
  rw [mapWithPaBits_eq hs' hfind', hbounds]
  exact mapRange_again memType access exec hs' hall

theorem mapWithPaBits_guards (h : s.Wf) {r : IpaOnlyRegion} (hr : VmMem.ipaOnly r ∈ s.vmMem)
    (hlo : r.base ≤ ipa) (hhi : ipa < r.base + r.size) :
    (Fallible.state ((mapWithPaBits usage memType access exec paBits).run s)).leafWord ipa =
      s.leafWord ipa := by
  have hbound : r.base + r.size ≤ 2 ^ 39 := (h.entries _ hr).2.2.2.2
  have hipa : ipa < 2 ^ 39 := by omega
  rcases mapWithPaBits_extends memType access exec paBits h hipa rfl with
    hsame | ⟨-, r', hr', -, hlo', hhi', -⟩
  · exact hsame
  · -- the entry and the guard would share the address
    have hapart := h.apart_of_ne hr hr' (fun heq => nomatch heq) ipa
    exact absurd ⟨⟨hlo, hhi⟩, ⟨hlo', hhi'⟩⟩ hapart

theorem State.Wf.mapExact (h : s.Wf) (usage : VmMemUsage) :
    MapExact s usage memType access exec paBits where
  mapped := fun _ hrun => mapWithPaBits_mapped memType access exec paBits h hrun
  failed := by
    intro e s' hrun ipa hipa
    exact mapWithPaBits_extends memType access exec paBits h hipa (by rw [hrun]; rfl)
  repeated := fun _ hrun => mapWithPaBits_repeated memType access exec paBits h hrun
  guards := fun _ hr _ hlo hhi => mapWithPaBits_guards memType access exec paBits h hr hlo hhi

end Call

/-- The leaves after a device call that succeeded. -/
theorem mapExternalDevice_leafWord {s : State} (h : s.Wf) {mmfr0 : Option Nat} {pa size : Nat}
    (hrun : (mapExternalDevice mmfr0 ipa pa size).run s = .ok () s') :
    ipa + size ≤ 2 ^ 39 ∧ pa + size ≤ 2 ^ 48 ∧ ∀ a, a < 2 ^ 39 → s'.leafWord a =
      if ipa ≤ a ∧ a < ipa + size then
        some (encodeL3PageDescriptor (pa + (4096 * (a / 4096) - ipa))
          .deviceNgNre .readWrite .executeNever)
      else s.leafWord a := by
  rcases mapExternalDevice_cases s mmfr0 ipa pa size with ⟨e, herr⟩ | ⟨-, hsize, hin, hloop⟩
  · rw [herr] at hrun
    cases hrun
  · rw [hloop] at hrun
    have hcount : size / 4096 * 4096 = size := by omega
    have hipaEnd := hin.ipaEnd
    have hpaEnd := hin.paEnd
    rw [hcount] at hipaEnd hpaEnd
    refine ⟨hipaEnd, hpaEnd, fun a ha => ?_⟩
    rw [mapRange_leafWord .deviceNgNre .readWrite .executeNever h hin hrun ha, hcount]

/-! ## The ranges of the entries -/

/-- The IPA ranges of a VM, guards included. -/
structure RangesApart (s : State) : Prop where
  /-- Only the tables have none. -/
  ranged : ∀ m ∈ s.vmMem, m.ipaRange = none → ∃ r, m = .paOnly r
  wholePages : ∀ m ∈ s.vmMem, ∀ start stop, m.ipaRange = some (start, stop) →
    start % 4096 = 0 ∧ stop % 4096 = 0 ∧ start < stop ∧ stop ≤ 2 ^ 39
  apart : (s.vmMem.filterMap VmMem.ipaRange).Pairwise fun a b =>
    Disjoint (Set.Ico a.1 a.2) (Set.Ico b.1 b.2)
  oncePerUsage : (s.vmMem.map VmMem.usage).Nodup

theorem VmMem.Wf.ipaRange_cases {m : VmMem} (h : m.Wf) :
    (∃ r, m = .paOnly r ∧ m.ipaRange = none) ∨
    ∃ start stop, m.ipaRange = some (start, stop) ∧ start % 4096 = 0 ∧ stop % 4096 = 0 ∧
      start < stop ∧ stop ≤ 2 ^ 39 ∧ ∀ ipa, m.InIpa ipa ↔ ipa ∈ Set.Ico start stop := by
  rcases m with r | r | r
  · obtain ⟨-, halign, hsize, hpos, hle⟩ := h
    have hend : r.endAddr = some (r.base + r.size) :=
      checkedAdd_of_lt (by unfold wordBound; omega)
    refine .inr ⟨r.base, r.base + r.size, by rw [ipaRange, hend]; rfl, halign, by omega, by omega,
      hle, fun ipa => Iff.rfl⟩
  · obtain ⟨-, halign, hsize, hpos, hle, -⟩ := h
    have hend : r.ipaEnd = some (r.ipa + r.size) :=
      checkedAdd_of_lt (by unfold wordBound; omega)
    refine .inr ⟨r.ipa, r.ipa + r.size, by rw [ipaRange, hend]; rfl, halign, by omega, by omega,
      hle, fun ipa => Iff.rfl⟩
  · exact .inl ⟨r, rfl, rfl⟩

theorem State.Wf.rangesApart {s : State} (h : s.Wf) : RangesApart s where
  ranged := by
    intro m hm hnone
    rcases (h.entries m hm).ipaRange_cases with ⟨r, hr, -⟩ | ⟨start, stop, hsome, -⟩
    · exact ⟨r, hr⟩
    · rw [hnone] at hsome
      cases hsome
  wholePages := by
    intro m hm start stop hrange
    rcases (h.entries m hm).ipaRange_cases with
      ⟨r, -, hnone⟩ | ⟨start', stop', hsome, h1, h2, h3, h4, -⟩
    · rw [hnone] at hrange
      cases hrange
    · rw [hsome] at hrange
      cases hrange
      exact ⟨h1, h2, h3, h4⟩
  apart := by
    rw [List.pairwise_filterMap]
    refine h.apart.imp_of_mem ?_
    rintro m m' hm hm' hapart ⟨start, stop⟩ hrange ⟨start', stop'⟩ hrange'
    rcases (h.entries m hm).ipaRange_cases with ⟨r, -, hnone⟩ | ⟨a, b, hsome, -, -, -, -, hin⟩
    · rw [hnone] at hrange
      cases hrange
    rcases (h.entries m' hm').ipaRange_cases with ⟨r, -, hnone⟩ | ⟨a', b', hsome', -, -, -, -, hin'⟩
    · rw [hnone] at hrange'
      cases hrange'
    rw [hsome] at hrange
    cases hrange
    rw [hsome'] at hrange'
    cases hrange'
    rw [Set.disjoint_left]
    intro ipa hipa hipa'
    exact hapart ipa ⟨(hin ipa).mpr hipa, (hin' ipa).mpr hipa'⟩
  oncePerUsage := h.usages

/-- From any memory and any allocator, after any calls: the ranges of the entries are apart, and
`map` does exactly what it was asked for. -/
theorem stage2_map_exact (memory : Memory) (pages : GlobalPageAllocator) (ops : List Op) :
    RangesApart (session memory pages ops).state ∧
      ∀ usage memType access exec paBits,
        MapExact (session memory pages ops).state usage memType access exec paBits := by
  have hwf := (session_inv memory pages ops).wf
  exact ⟨hwf.rangesApart, fun usage memType access exec paBits =>
    hwf.mapExact memType access exec paBits usage⟩

end Tvisor.VmCtl
