/-
# Tvisor.El2Stage1.Complete -- maps of free ranges succeed, and repeated maps do nothing

A leaf cannot be written where one of its addresses translates or where there is a table below it.
In tables that were built by successful maps the second implies the first: every table but the root
was linked on the way to a leaf, so some address below it translates. Hence a map of a range
without translations can only run out of pages.

A leaf that was written stays in its entry, and the tables on its route stay linked, whatever is
mapped later. So a map that is run again finds every leaf in place and stores the words that are
there.
-/
import Tvisor.El2Stage1.Builder

namespace Tvisor.El2Stage1

open Fallible Page Words

namespace TableSet

variable {n : Nat} {t t' u : TableSet n} {mapping : Mapping} {level va pa : Nat}

/-! ## No empty tables -/

/-- Some address on this path translates. -/
def Bears (t : TableSet n) (p : List (Fin 512)) : Prop :=
  ∃ va, va < 2 ^ 39 ∧ p <+: route 3 va ∧ (t.view va).isSome

/-- There is a translation below every table but the root. -/
def NoEmptyTable (t : TableSet n) : Prop := ∀ p table, t.reach p = some table → p ≠ [] → t.Bears p

theorem Bears.of_extends {p : List (Fin 512)} (h : t.Bears p) (hext : Extends mapping t t') :
    t'.Bears p := by
  obtain ⟨va, hva, hp, hsome⟩ := h
  obtain ⟨tr, htr⟩ := Option.isSome_iff_exists.mp hsome
  refine ⟨va, hva, hp, ?_⟩
  rw [hext.keep hva htr]
  rfl

/-- The tables that a leaf needed are on the route of its own address. -/
theorem NoEmptyTable.leaf (h : t.NoEmptyTable) (hfits : Fits mapping level va pa)
    (hleaf : Leafed mapping level va pa t t') : t'.NoEmptyTable := by
  intro p table hp hne
  rcases hleaf.paths hp with hold | hroute
  · exact (h p table hold hne).of_extends hleaf.added
  · obtain ⟨tr, htr, -⟩ := hleaf.mapped va hfits.va_lt rfl
    refine ⟨va, hfits.va_lt, hroute, ?_⟩
    rw [htr]
    rfl

theorem new_noEmptyTable {storage : Arena} {basePa paBits : Nat}
    (hnew : new storage basePa paBits = .ok t) : t.NoEmptyTable :=
  fun _ _ hp hne => absurd (new_reach hnew hp).1 hne

/-- Where nothing translates, nothing is in the way of a leaf. -/
theorem NoEmptyTable.not_obstructed (h : t.NoEmptyTable) (hfits : Fits mapping level va pa)
    (hfree : ∀ va', va ≤ va' → va' < va + levelSize level → t.view va' = none) :
    ¬ t.Obstructed level va := by
  have huncovered : ∀ va', va' / levelSize level = va / levelSize level →
      ¬ (t.view va').isSome := by
    intro va' hin hsome
    obtain ⟨hlo, hhi⟩ := hfits.covers_iff.mp hin
    rw [hfree va' hlo hhi] at hsome
    cases hsome
  rintro (⟨va', -, hin, hsome⟩ | ⟨c, hc⟩)
  · exact huncovered va' hin hsome
  · have hne : route level va ≠ [] := by
      intro hnil
      have hlen := length_route level va
      rw [hnil] at hlen
      rcases hfits.isLevel with rfl | rfl | rfl <;> cases hlen
    obtain ⟨va', hva', hthrough, hsome⟩ := h _ c hc hne
    exact huncovered va' ((route_through_iff hfits.isLevel hfits.va_lt hva').mp hthrough) hsome

/-! ## Completeness -/

/-- A leaf where nothing translates is written, or there are no pages for its tables. -/
theorem mapLeaf_complete (hwf : t.Wf) (h : t.NoEmptyTable) (hfits : Fits mapping level va pa)
    (hfree : ∀ va', va ≤ va' → va' < va + levelSize level → t.view va' = none) :
    (∃ t', (mapLeaf level va pa mapping).run t = .ok () t' ∧ Leafed mapping level va pa t t') ∨
    ∃ t', (mapLeaf level va pa mapping).run t = .error .tableExhausted t' := by
  rcases mapLeaf_spec hwf hfits with hok | ⟨e, t', hrun, -, rfl | hobstructed⟩
  · exact Or.inl hok
  · exact Or.inr ⟨t', hrun⟩
  · exact absurd hobstructed (h.not_obstructed hfits hfree)

theorem map_complete (hwf : t.Wf) (h : t.NoEmptyTable) (hval : t.validateMapping mapping = .ok ())
    (hfree : ∀ va, InRange mapping va → t.view va = none) :
    (∃ t', (map mapping).run t = .ok () t') ∨
    ∃ t', (map mapping).run t = .error .tableExhausted t' := by
  have hcursor := hwf.cursor hval
  have hend := hcursor.va_end
  rw [map_run, hval]
  -- Ahead of the cursor nothing translates yet.
  have hloop := @mapLoop_rule n mapping
    (fun place s => s.Wf ∧ s.NoEmptyTable ∧
      ∀ va', place ≤ va' → va' < mapping.va + mapping.size → s.view va' = none)
    (fun e (_ : TableSet n) => e = .tableExhausted) ?_ mapping.size _ _ _ t
    hcursor le_rfl ⟨hwf, h, fun va hlo hhi => hfree va ⟨hlo, hhi⟩⟩
  · rcases hloop with ⟨t', hrun, -⟩ | ⟨e, t', hrun, rfl⟩
    · exact Or.inl ⟨t', hrun⟩
    · exact Or.inr ⟨t', hrun⟩
  · rintro level place pa s hfits ⟨hwf, h, hahead⟩
    have hstop := hfits.stop
    rcases mapLeaf_complete hwf h hfits
        (fun va' hlo hhi => hahead va' hlo (by omega)) with ⟨s', hrun, hleaf⟩ | ⟨s', hrun⟩
    · refine Or.inl ⟨s', hrun, hleaf.wf, h.leaf hfits hleaf, ?_⟩
      intro va' hlo hhi
      have hbehind : ¬ va' / levelSize level = place / levelSize level := by
        intro hin
        have := hfits.covers_iff.mp hin
        omega
      rw [hleaf.outside va' (by omega) hbehind]
      exact hahead va' (by omega) hhi
    · exact Or.inr ⟨_, s', hrun, rfl⟩

/-- A successful map leaves no empty table behind. -/
theorem map_noEmptyTable (hwf : t.Wf) (h : t.NoEmptyTable)
    (hrun : (map mapping).run t = .ok () t') :
    t'.NoEmptyTable := by
  rw [map_run] at hrun
  split at hrun
  · cases hrun
  · rename_i hval
    have hloop := @mapLoop_rule n mapping (fun _ s => s.Wf ∧ s.NoEmptyTable)
      (fun _ (_ : TableSet n) => True) ?_ mapping.size _ _ _ t
      (hwf.cursor hval) le_rfl ⟨hwf, h⟩
    · rcases hloop with ⟨s, hrun', -, hs⟩ | ⟨e, s, hrun', -⟩
      · cases hrun.symm.trans hrun'
        exact hs
      · cases hrun.symm.trans hrun'
    · rintro level va pa s hfits ⟨hwf, h⟩
      rcases mapLeaf_spec hwf hfits with ⟨s', hrun', hleaf⟩ | ⟨e, s', hrun', -⟩
      · exact Or.inl ⟨s', hrun', hleaf.wf, h.leaf hfits hleaf⟩
      · exact Or.inr ⟨e, s', hrun', trivial⟩

/-! ## Idempotence -/

theorem Present.of_grows (h : t.Present mapping level va pa) (hfits : Fits mapping level va pa)
    (hgrows : Grows t u) : u.Present mapping level va pa := by
  obtain ⟨table, hp, hentry⟩ := h
  refine ⟨table, hgrows.reach hp, ?_⟩
  rw [← hentry]
  apply hgrows.kept hp
  rw [hentry]
  have hvalid := (leaf_fields mapping hfits.isLevel hfits.pa_aligned hfits.pa_lt).1
  omega

/-- Where the tables are there, the descent follows the links and changes nothing. -/
theorem descendAll_existing (h : t.Wf) : ∀ (m d table : Nat) {c : Nat}, d + m ≤ 2 →
    t.reach (route d va) = some table → t.reach (route (d + m) va) = some c →
    ((List.range' (d + 1) m).foldlM (fun table current => descend va current table) table).run t =
      .ok c t := by
  intro m
  induction m with
  | zero =>
    intro d table c _ hp hc
    cases hp.symm.trans hc
    rfl
  | succ m ih =>
    intro d table c hdm hp hc
    have hlen : (route d va).length < 2 := by
      rw [length_route]
      omega
    obtain ⟨child, hchild⟩ := reach_route_add hc
    rw [route_succ] at hchild
    have hnonzero : t.storage table (indexFor (d + 1) va) ≠ 0 :=
      fun hzero => reach_of_empty hp hzero _ hchild
    have hdepth : d + (m + 1) = d + 1 + m := by omega
    rw [hdepth] at hc
    rw [List.range'_succ, List.foldlM_cons, EStateM.run_bind]
    rcases h.entry_cases hp hlen (indexFor (d + 1) va) with
      hempty | ⟨hlink, child', hindex, hreach⟩ | ⟨-, hleaf⟩
    · exact absurd hempty hnonzero
    · have hstep : (descend va (d + 1) table).run t = .ok child' t := by
        unfold descend
        simp only [EStateM.run_bind, EStateM.run_get, run_ite]
        rw [if_neg hnonzero, if_pos hlink, hindex]
        rfl
      rw [hstep]
      rw [← route_succ] at hreach
      exact ih (d + 1) child' (by omega) hreach hc
    · obtain ⟨other, hother, hdec⟩ := Radix.follow_concat_eq_some.mp hchild
      cases hp.symm.trans hother
      cases hleaf.symm.trans hdec

theorem mapLeaf_present (h : t.Wf) (hfits : Fits mapping level va pa)
    (hpresent : t.Present mapping level va pa) :
    (mapLeaf level va pa mapping).run t = .ok () t := by
  obtain ⟨table, hp, hentry⟩ := hpresent
  have hdepth : 0 + (level - 1) ≤ 2 := by
    rcases hfits.isLevel with rfl | rfl | rfl <;> decide
  have hdown := descendAll_existing h (level - 1) 0 0 hdepth rfl (by rw [Nat.zero_add]; exact hp)
  unfold mapLeaf
  rw [EStateM.run_bind, hdown]
  simp only [EStateM.run_bind, EStateM.run_get, run_ite]
  rw [if_neg (fun hconf => hconf.2 hentry), ← hentry]
  show EStateM.Result.ok () (t.setEntry table (indexFor level va) _) = _
  unfold setEntry
  rw [Radix.set_self]

/-- A loop that succeeded finds all its leaves in tables that have grown from its own. -/
theorem mapLoop_again : ∀ (fuel va pa remaining : Nat) {t t' : TableSet n}, t.Wf →
    Cursor mapping va pa remaining → remaining ≤ fuel →
    (mapLoop mapping fuel va pa remaining).run t = .ok () t' → u.Wf → Grows t' u →
    (mapLoop mapping fuel va pa remaining).run u = .ok () u := by
  intro fuel
  induction fuel with
  | zero =>
    intro va pa remaining t t' _ _ _ _ _ _
    rfl
  | succ fuel ih =>
    intro va pa remaining t t' h hcursor hfuel hrun hu hgrows
    rw [mapLoop] at hrun ⊢
    by_cases hpos : remaining ≠ 0
    · obtain ⟨level, hchunk, hfits, hmin, hfit, hnext⟩ := hcursor.next hpos
      rw [if_pos hpos, hchunk] at hrun ⊢
      obtain ⟨_, s, hleafRun, hrest⟩ := run_bind_eq_ok.mp hrun
      apply run_bind_eq_ok.mpr
      rcases mapLeaf_spec h hfits with ⟨s', hrun', hleaf⟩ | ⟨e, s', hrun', -⟩
      · cases hleafRun.symm.trans hrun'
        have hrestGrows : Grows s t' := by
          rcases mapLoop_spec hleaf.wf hnext (show _ ≤ fuel by omega) with
            ⟨t'', hrest', hprogress, -⟩ | ⟨e, t'', hrest', -⟩
          · cases hrest.symm.trans hrest'
            exact hprogress.grows
          · cases hrest.symm.trans hrest'
        have hpresent := hleaf.present.of_grows hfits (hrestGrows.trans hgrows)
        exact ⟨(), u, mapLeaf_present hu hfits hpresent,
          ih _ _ _ hleaf.wf hnext (by omega) hrest hu hgrows⟩
      · cases hleafRun.symm.trans hrun'
    · rw [if_neg hpos]
      rfl

theorem validateMapping_congr (h : u.paBits = t.paBits) (mapping : Mapping) :
    u.validateMapping mapping = t.validateMapping mapping := by
  unfold validateMapping
  rw [h]

theorem map_again (h : t.Wf) (hrun : (map mapping).run t = .ok () t') (hu : u.Wf)
    (hgrows : Grows t' u) : (map mapping).run u = .ok () u := by
  have hbits : u.paBits = t.paBits := by
    rcases map_spec h mapping with ⟨s, hrun', hprogress, -⟩ | ⟨e, s, hrun', -⟩
    · cases hrun.symm.trans hrun'
      exact hgrows.paBits.trans hprogress.grows.paBits
    · cases hrun.symm.trans hrun'
  rw [map_run] at hrun ⊢
  rw [validateMapping_congr hbits]
  split at hrun
  · cases hrun
  · rename_i hval
    exact mapLoop_again _ _ _ _ h (h.cursor hval) le_rfl hrun hu hgrows

/-! ## Runs of successful maps -/

/-- What holds after maps that all returned `Ok`. -/
structure AllMapped (calls : List Mapping) (t t' : TableSet n) : Prop where
  wf : t'.Wf
  noEmptyTable : t'.NoEmptyTable
  grows : Grows t t'
  again : ∀ mapping ∈ calls, ∀ u : TableSet n, u.Wf → Grows t' u →
    (map mapping).run u = .ok () u

theorem allMapped_of_ok {calls : List Mapping} (h : t.Wf) (hno : t.NoEmptyTable)
    (hrun : (calls.forM map).run t = .ok () t') : AllMapped calls t t' := by
  induction calls generalizing t with
  | nil =>
    cases hrun
    exact ⟨h, hno, Grows.refl _, fun _ hmem => absurd hmem List.not_mem_nil⟩
  | cons first rest ih =>
    obtain ⟨s, hfirst, hrest⟩ := run_forM_cons_eq_ok.mp hrun
    rcases map_spec h first with ⟨s', hfirst', hprogress, -⟩ | ⟨e, s', hfirst', -⟩
    · cases hfirst.symm.trans hfirst'
      have hlater := ih hprogress.wf (map_noEmptyTable h hno hfirst) hrest
      refine ⟨hlater.wf, hlater.noEmptyTable, hprogress.grows.trans hlater.grows, ?_⟩
      intro mapping hmem u hu hgrows
      rcases List.mem_cons.mp hmem with rfl | hmem
      · exact map_again h hfirst hu (hlater.grows.trans hgrows)
      · exact hlater.again mapping hmem u hu hgrows
    · cases hfirst.symm.trans hfirst'

/-- After maps that all returned `Ok`: a valid map of a range in which nothing translates returns
`Ok` or `TableExhausted`, and each of the maps can be repeated, which returns `Ok` and leaves the
tables as they are. -/
theorem map_complete_and_idempotent {storage : Arena} {basePa paBits : Nat} {t₀ t : TableSet n}
    (hnew : new storage basePa paBits = .ok t₀) {calls : List Mapping}
    (hcalls : (calls.forM map).run t₀ = .ok () t) :
    (∀ mapping, t.validateMapping mapping = .ok () →
      (∀ va, InRange mapping va → t.walk va = .ok none) →
      (∃ t', (map mapping).run t = .ok () t') ∨
      ∃ t', (map mapping).run t = .error .tableExhausted t') ∧
    ∀ mapping ∈ calls, (map mapping).run t = .ok () t := by
  have h := allMapped_of_ok (new_wf hnew) (new_noEmptyTable hnew) hcalls
  constructor
  · intro mapping hval hfree
    refine map_complete h.wf h.noEmptyTable hval fun va hin => ?_
    have hva : va < 2 ^ 39 := lt_of_lt_of_le hin.2 (h.wf.cursor hval).va_end
    have hwalk := hfree va hin
    rw [walk_eq h.wf hva] at hwalk
    exact Except.ok.inj hwalk
  · intro mapping hmem
    exact h.again mapping hmem t h.wf (Grows.refl t)

/-- One page of the image, at its own address. -/
def onePage : Mapping := ⟨0x40001000, 0x40001000, 0x1000, .normal, true, false⟩

/-- The page is mapped once and then once more. -/
theorem map_complete_and_idempotent_onePage :
    ∃ t₀ t : TableSet 3, staleTables = .ok t₀ ∧ ([onePage].forM map).run t₀ = .ok () t ∧
      (map onePage).run t = .ok () t := by
  have hnew : new (fun _ _ => 0x7ff) 0x30000000 44 =
      .ok (withPage (n := 3) ⟨fun _ _ => 0x7ff, 0, 0x30000000, 44⟩) := rfl
  have hcalls := eq_ok_of_isOk (r := ([onePage].forM map).run
    (withPage (n := 3) ⟨fun _ _ => 0x7ff, 0, 0x30000000, 44⟩)) (by decide +kernel)
  exact ⟨_, _, hnew, hcalls,
    (map_complete_and_idempotent hnew hcalls).2 onePage (List.mem_singleton_self _)⟩

end TableSet

end Tvisor.El2Stage1
