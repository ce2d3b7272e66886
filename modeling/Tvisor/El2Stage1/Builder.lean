/-
# Tvisor.El2Stage1.Builder -- the table builder is correct and local

`map` is a sequence of leaves. Each leaf first descends, linking fresh empty tables on the way,
which no walk can see; its last step is the one store that a walk can see, and only on the
addresses the leaf covers. `Extends` records exactly that and composes along the loop, so it holds
of a map that stops half-way just as it does of one that finishes.
-/
import Tvisor.El2Stage1.Tree

namespace Tvisor.El2Stage1

open Fallible Page Words

/-! ## Requests -/

variable {level va pa table d remaining : Nat} {storage : Arena}

/-- The address lies in the requested range. -/
def InRange (mapping : Mapping) (va : Nat) : Prop :=
  mapping.va ≤ va ∧ va < mapping.va + mapping.size

/-- The translation is the requested one: the address at the same offset, with the requested
attributes. -/
def Requested (mapping : Mapping) (va : Nat) (tr : Translation) : Prop :=
  tr.pa = mapping.pa + (va - mapping.va) ∧ tr.memoryType = mapping.memoryType ∧
    tr.writable = mapping.writable ∧ tr.executable = mapping.executable

theorem requested_leaf {va' : Nat} (mapping : Mapping) (hl : IsLevel level)
    (hvaAlign : va % levelSize level = 0) (hpaAlign : pa % levelSize level = 0)
    (hpa : pa < 2 ^ 48) (hle : mapping.va ≤ va) (hoff : pa + mapping.va = mapping.pa + va)
    (hin : va' / levelSize level = va / levelSize level) :
    Requested mapping va' (translationOf level (leafDescriptor level pa mapping) va') := by
  obtain ⟨-, -, hattr, hwrite, hexec, hmask⟩ := leaf_fields mapping hl hpaAlign hpa
  refine ⟨?_, ?_, ?_, ?_⟩
  · show (leafDescriptor level pa mapping &&& outputMask level) |||
      (va' &&& (levelSize level - 1)) = _
    rw [hmask]
    rw [levelSize_eq] at hvaAlign hpaAlign hin ⊢
    have hdiv := Nat.div_add_mod va' (2 ^ shiftOf level)
    have hdiv' := Nat.div_add_mod va (2 ^ shiftOf level)
    rw [Nat.and_two_pow_sub_one_eq_mod,
      lor_eq_add _ hpaAlign (Nat.mod_lt _ (Nat.two_pow_pos _))]
    rw [hin] at hdiv
    omega
  · show (if leafDescriptor level pa mapping / 4 % 8 = 0 then MemoryType.normal
      else MemoryType.device) = _
    rw [hattr]
    rcases mapping.memoryType with _ | _ <;> rfl
  · show (leafDescriptor level pa mapping &&& apReadOnly == 0) = _
    apply Bool.eq_iff_iff.mpr
    rw [beq_iff_eq, land_apReadOnly, hwrite]
    split_ifs with hw <;> simp [hw]
  · show (leafDescriptor level pa mapping &&& xn == 0) = _
    apply Bool.eq_iff_iff.mpr
    rw [beq_iff_eq, land_xn, hexec]
    split_ifs with hx <;> simp [hx]

namespace TableSet

variable {n : Nat} {t : TableSet n} {mapping : Mapping}

/-! ## Descending -/

/-- What an entry above level 3 can be: nothing, a link that the code follows, or a leaf. -/
theorem Wf.entry_cases (h : t.Wf) {p : List (Fin 512)} (hp : t.reach p = some table)
    (hlen : p.length < 2) (i : Fin 512) :
    t.storage table i = 0 ∨
    (t.storage table i &&& (valid ||| tableOrPage) = (valid ||| tableOrPage) ∧
      ∃ c, t.tableIndex (t.storage table i &&& addressMask) = .ok c ∧
        t.reach (p ++ [i]) = some c) ∨
    (t.storage table i &&& (valid ||| tableOrPage) ≠ (valid ||| tableOrPage) ∧
      decode t.basePa p.length (t.storage table i) = .leaf (t.storage table i)) := by
  have hgood := h.good hp i
  have hchild : ∀ c, decode t.basePa p.length (t.storage table i) = .table c →
      t.reach (p ++ [i]) = some c ∧ c < t.used := fun c hc =>
    ⟨Radix.follow_concat_eq_some.mpr ⟨table, hp, hc⟩, h.child_used hp hc⟩
  generalize t.storage table i = w at hgood hchild ⊢
  rw [ne_eq, land_link]
  by_cases hzero : w = 0
  · exact Or.inl hzero
  right
  by_cases hlink : w % 4 = 3
  · left
    refine ⟨hlink, ?_⟩
    unfold decode at hgood hchild
    rw [if_neg hzero, if_neg (by omega), if_pos (by omega)] at hgood hchild
    split at hgood
    · rename_i hfmt
      rw [if_pos hfmt] at hchild
      obtain ⟨hreach, hused⟩ := hchild _ rfl
      exact ⟨_, tableIndex_ok hfmt.1 hfmt.2 hused, hreach⟩
    · exact absurd rfl hgood
  · right
    refine ⟨hlink, ?_⟩
    unfold decode at hgood ⊢
    rw [if_neg hzero] at hgood ⊢
    by_cases hvalid : w % 2 = 0
    · rw [if_pos hvalid] at hgood
      exact absurd rfl hgood
    · rw [if_neg hvalid, if_neg (by omega), if_neg (by omega)] at hgood ⊢
      split at hgood
      · rename_i hattr
        rw [if_pos hattr]
      · exact absurd rfl hgood

/-- A descent to the table at depth `d` on the route of an address. Tables that were not there are
on that route, and if there is one then the last of them is empty. -/
structure Descent (va d child : Nat) (t t' : TableSet n) : Prop where
  wf : t'.Wf
  same : Same t t'
  grows : Grows t t'
  reached : t'.reach (route d va) = some child
  fresh : t' = t ∨ ∀ j, t'.storage child j = 0
  paths : ∀ {p table}, t'.reach p = some table → t.reach p = some table ∨ p <+: route d va

theorem Descent.stay (h : t.Wf) {child : Nat} (hreach : t.reach (route d va) = some child) :
    Descent va d child t t where
  wf := h
  same := Same.refl t
  grows := Grows.refl t
  reached := hreach
  fresh := Or.inl rfl
  paths := Or.inl

theorem Descent.link (h : t.Wf) (hd : d < 2) (hp : t.reach (route d va) = some table)
    (hroom : t.used ≠ n) (hempty : t.storage table (indexFor (d + 1) va) = 0) :
    Descent va (d + 1) t.used t (t.linked table (indexFor (d + 1) va)) := by
  have hlen : (route d va).length < 2 := by
    rw [length_route]
    exact hd
  obtain ⟨hwf, hsame, hreach⟩ := h.linkPage hroom hp hlen hempty
  rw [← route_succ] at hreach
  refine ⟨hwf, hsame, h.grows_linked hroom hp hlen hempty, ?_, ?_, ?_⟩
  · rw [hreach, if_pos rfl]
  · exact Or.inr (linked_fresh h hp)
  · intro p other hother
    rw [hreach] at hother
    split at hother
    · rename_i heq
      exact Or.inr (heq ▸ List.prefix_rfl)
    · exact Or.inl hother

theorem route_prefix_add (d m va : Nat) : route d va <+: route (d + m) va := by
  induction m with
  | zero => exact List.prefix_rfl
  | succ m ih =>
    rw [← Nat.add_assoc, route_succ]
    exact ih.trans (List.prefix_append ..)

/-- The tables above a table on the route are there. -/
theorem reach_route_add {m c : Nat} (hc : t.reach (route (d + (m + 1)) va) = some c) :
    ∃ child, t.reach (route (d + 1) va) = some child := by
  obtain ⟨rest, hrest⟩ := route_prefix_add (d + 1) m va
  have hdepth : d + (m + 1) = d + 1 + m := by omega
  rw [hdepth, ← hrest, reach, Radix.follow_append] at hc
  obtain ⟨child, hchild, -⟩ := Option.bind_eq_some_iff.mp hc
  exact ⟨child, hchild⟩

theorem Descent.trans {t t' t'' : TableSet n} {m child child' : Nat} (h : Descent va d child t t')
    (h' : Descent va (d + m) child' t' t'') :
    Descent va (d + m) child' t t'' where
  wf := h'.wf
  same := h.same.trans h'.same
  grows := h.grows.trans h'.grows
  reached := h'.reached
  fresh := by
    rcases h'.fresh with rfl | hzero
    · rcases h.fresh with rfl | hzero
      · exact Or.inl rfl
      · -- Nothing is linked below an empty table, so the second part has gone no further.
        right
        have hreached := h'.reached
        obtain ⟨rest, hrest⟩ := route_prefix_add d m va
        rw [← hrest, reach, Radix.follow_append] at hreached
        rw [show Radix.follow _ _ 0 0 (route d va) = some child from h.reached] at hreached
        rcases rest with _ | ⟨j, rest⟩
        · cases hreached
          exact hzero
        · rw [Option.bind_some, Radix.follow, hzero, decode_zero] at hreached
          cases hreached
    · exact Or.inr hzero
  paths := by
    intro p table hp
    rcases h'.paths hp with hp | hp
    · rcases h.paths hp with hp | hp
      · exact Or.inl hp
      · exact Or.inr (hp.trans (route_prefix_add d m va))
    · exact Or.inr hp

/-- One level of the descent. It fails for want of a page, or below a leaf. -/
theorem descend_spec (h : t.Wf) (hva : va < 2 ^ 39) (hd : d < 2)
    (hp : t.reach (route d va) = some table) :
    (∃ child t', (descend va (d + 1) table).run t = .ok child t' ∧
      Descent va (d + 1) child t t') ∨
    ∃ e, (descend va (d + 1) table).run t = .error e t ∧
      (e = .tableExhausted ∨ (t.view va).isSome) := by
  have hlen : (route d va).length < 2 := by
    rw [length_route]
    exact hd
  unfold descend
  simp only [EStateM.run_bind, EStateM.run_get, run_ite]
  by_cases hzero : t.storage table (indexFor (d + 1) va) = 0
  · rw [if_pos hzero, allocatePage_run]
    by_cases hroom : t.used = n
    · rw [if_pos hroom]
      exact Or.inr ⟨_, rfl, Or.inl rfl⟩
    · rw [if_neg hroom]
      exact Or.inl ⟨t.used, _, rfl, Descent.link h hd hp hroom hzero⟩
  · rw [if_neg hzero]
    rcases h.entry_cases hp hlen (indexFor (d + 1) va) with
      hempty | ⟨hlink, c, hindex, hreach⟩ | ⟨hlink, hleaf⟩
    · exact absurd hempty hzero
    · rw [if_pos hlink, hindex]
      rw [← route_succ] at hreach
      exact Or.inl ⟨c, t, rfl, Descent.stay h hreach⟩
    · rw [if_neg hlink]
      refine Or.inr ⟨_, rfl, Or.inr ?_⟩
      have hl : IsLevel (d + 1) := by
        unfold IsLevel
        omega
      rw [length_route] at hleaf
      rw [view_through hl hva hva rfl hp (fun c hc => by cases hleaf.symm.trans hc)]
      rw [Nat.add_sub_cancel, hleaf]
      rfl

theorem descendAll_spec (hva : va < 2 ^ 39) : ∀ (m d table : Nat) {t : TableSet n},
    t.Wf → d + m ≤ 2 → t.reach (route d va) = some table →
    (∃ child t', ((List.range' (d + 1) m).foldlM
        (fun table current => descend va current table) table).run t = .ok child t' ∧
      Descent va (d + m) child t t') ∨
    ∃ e t', ((List.range' (d + 1) m).foldlM
        (fun table current => descend va current table) table).run t = .error e t' ∧
      t'.Wf ∧ Same t t' ∧ Grows t t' ∧ (e = .tableExhausted ∨ (t.view va).isSome) := by
  intro m
  induction m with
  | zero =>
    intro d table t h _ hp
    exact Or.inl ⟨table, t, rfl, Descent.stay h hp⟩
  | succ m ih =>
    intro d table t h hdm hp
    rw [List.range'_succ, List.foldlM_cons]
    simp only [EStateM.run_bind]
    rcases descend_spec h hva (by omega) hp with ⟨child, t', hrun, hdown⟩ | ⟨e, hrun, hwhy⟩
    · rw [hrun]
      have hdepth : d + (m + 1) = d + 1 + m := by omega
      rw [hdepth]
      rcases ih (d + 1) child hdown.wf (by omega) hdown.reached with
        ⟨child', t'', hrun', hdown'⟩ | ⟨e, t'', hrun', hwf, hsame, hgrows, hwhy⟩
      · exact Or.inl ⟨child', t'', hrun', hdown.trans hdown'⟩
      · refine Or.inr ⟨e, t'', hrun', hwf, hdown.same.trans hsame, hdown.grows.trans hgrows, ?_⟩
        rw [← hdown.same.view]
        exact hwhy
    · rw [hrun]
      exact Or.inr ⟨e, t, rfl, h, Same.refl t, Grows.refl t, hwhy⟩

/-! ## What a map may change -/

/-- Nothing that translated changes, and what newly translates was asked for. -/
def Extends (mapping : Mapping) (t t' : TableSet n) : Prop :=
  ∀ va, va < 2 ^ 39 → t'.view va = t.view va ∨
    (t.view va = none ∧ InRange mapping va ∧ ∃ tr, t'.view va = some tr ∧ Requested mapping va tr)

theorem Same.extends {t t' : TableSet n} (h : Same t t') (mapping : Mapping) :
    Extends mapping t t' := fun va _ => .inl (h.view va)

theorem Extends.trans {t₁ t₂ t₃ : TableSet n} (h : Extends mapping t₁ t₂)
    (h' : Extends mapping t₂ t₃) : Extends mapping t₁ t₃ := by
  intro va hva
  rcases h' va hva with heq | ⟨hnone, hin, tr, htr, hreq⟩
  · rw [heq]
    exact h va hva
  · rcases h va hva with heq' | ⟨-, -, tr', htr', -⟩
    · exact .inr ⟨heq'.symm.trans hnone, hin, tr, htr, hreq⟩
    · rw [hnone] at htr'
      cases htr'

/-- A translation survives everything a map does later. -/
theorem Extends.keep {t t' : TableSet n} (h : Extends mapping t t') (hva : va < 2 ^ 39)
    {tr : Translation} (htr : t.view va = some tr) :
    t'.view va = some tr := by
  rcases h va hva with heq | ⟨hnone, -⟩
  · rw [heq, htr]
  · rw [hnone] at htr
    cases htr

/-- What becomes of the tables in a map, whether it succeeds or not. -/
structure Progress (mapping : Mapping) (t t' : TableSet n) : Prop where
  wf : t'.Wf
  added : Extends mapping t t'
  grows : Grows t t'

theorem Progress.refl (h : t.Wf) (mapping : Mapping) : Progress mapping t t :=
  ⟨h, (Same.refl t).extends mapping, Grows.refl t⟩

theorem Progress.trans {t₁ t₂ t₃ : TableSet n} (h : Progress mapping t₁ t₂)
    (h' : Progress mapping t₂ t₃) : Progress mapping t₁ t₃ :=
  ⟨h'.wf, h.added.trans h'.added, h.grows.trans h'.grows⟩

/-- A leaf of this level at this address is part of the request. -/
structure Fits (mapping : Mapping) (level va pa : Nat) : Prop where
  isLevel : IsLevel level
  va_lt : va < 2 ^ 39
  va_aligned : va % levelSize level = 0
  pa_aligned : pa % levelSize level = 0
  pa_lt : pa < 2 ^ 48
  start : mapping.va ≤ va
  stop : va + levelSize level ≤ mapping.va + mapping.size
  offset : pa + mapping.va = mapping.pa + va

/-- The addresses below a leaf are the ones with its quotient. -/
theorem Fits.covers_iff (h : Fits mapping level va pa) {va' : Nat} :
    va' / levelSize level = va / levelSize level ↔ va ≤ va' ∧ va' < va + levelSize level := by
  have hpos : 0 < levelSize level := by
    rw [levelSize_eq]
    exact Nat.two_pow_pos _
  have hdiv := Nat.div_add_mod va (levelSize level)
  rw [h.va_aligned, Nat.add_zero] at hdiv
  constructor
  · intro heq
    have hdiv' := Nat.div_add_mod va' (levelSize level)
    have hlt := Nat.mod_lt va' hpos
    rw [heq] at hdiv'
    omega
  · rintro ⟨hlo, hhi⟩
    apply Nat.div_eq_of_lt_le
    · rw [Nat.mul_comm]
      omega
    · rw [Nat.succ_mul, Nat.mul_comm]
      omega

/-- The entry of the leaf holds its descriptor. -/
def Present (t : TableSet n) (mapping : Mapping) (level va pa : Nat) : Prop :=
  ∃ table, t.reach (route (level - 1) va) = some table ∧
    t.storage table (indexFor level va) = leafDescriptor level pa mapping

/-- A leaf that was written, and the tables on the way to it. -/
structure Leafed (mapping : Mapping) (level va pa : Nat) (t t' : TableSet n) : Prop extends
    Progress mapping t t' where
  mapped : ∀ va', va' < 2 ^ 39 → va' / levelSize level = va / levelSize level →
    ∃ tr, t'.view va' = some tr ∧ Requested mapping va' tr
  outside : ∀ va', va' < 2 ^ 39 → ¬ va' / levelSize level = va / levelSize level →
    t'.view va' = t.view va'
  present : t'.Present mapping level va pa
  paths : ∀ {p table}, t'.reach p = some table → t.reach p = some table ∨ p <+: route 3 va

/-- The store that ends `map_leaf`: the entry was free, or it held this very leaf. -/
theorem Wf.setLeaf (h : t.Wf) (hfits : Fits mapping level va pa)
    (hp : t.reach (route (level - 1) va) = some table)
    (hentry : t.storage table (indexFor level va) = 0 ∨
      t.storage table (indexFor level va) = leafDescriptor level pa mapping) :
    Leafed mapping level va pa t
      (t.setEntry table (indexFor level va) (leafDescriptor level pa mapping)) := by
  obtain ⟨hl, hva, hvaAlign, hpaAlign, hpa, hle, hend, hoff⟩ := id hfits
  set leaf := leafDescriptor level pa mapping
  have hdec : decode t.basePa (level - 1) leaf = .leaf leaf := decode_leaf hl hpaAlign hpa
  have hnew : ∀ c, decode t.basePa (level - 1) leaf ≠ .table c := by
    rw [hdec]
    exact nofun
  have hold : ∀ c, decode t.basePa (level - 1) (t.storage table (indexFor level va)) ≠
      .table c := by
    rcases hentry with h0 | h0
    · rw [h0, decode_zero]
      exact nofun
    · rw [h0]
      exact hnew
  have hgood : decode t.basePa (level - 1) leaf ≠ .bad := by
    rw [hdec]
    exact nofun
  obtain ⟨hwf, hreach, hout⟩ := h.setEntry hl hva hp hold hnew hgood
  have hstored : (t.setEntry table (indexFor level va) leaf).storage table (indexFor level va) =
      leaf := Radix.set_same
  have hafter : ∀ va', va' < 2 ^ 39 → va' / levelSize level = va / levelSize level →
      (t.setEntry table (indexFor level va) leaf).view va' =
        some (translationOf level leaf va') := by
    intro va' hva' hin
    have hview := view_through hl hva hva' hin ((hreach _).trans hp) (by rw [hstored]; exact hnew)
    rw [hstored] at hview
    rw [hview, show decode (t.setEntry table (indexFor level va) leaf).basePa _ _ = _ from hdec]
  have hreq := fun va' (hin : va' / levelSize level = va / levelSize level) =>
    requested_leaf mapping hl hvaAlign hpaAlign hpa hle hoff hin
  refine ⟨⟨hwf, ?_, h.grows_setLeaf hl hpaAlign hpa hp hreach hentry⟩,
    fun va' hva' hin => ⟨_, hafter va' hva' hin, hreq va' hin⟩, hout,
    ⟨table, (hreach _).trans hp, hstored⟩, fun hq => Or.inl ((hreach _).symm.trans hq)⟩
  intro va' hva'
  by_cases hin : va' / levelSize level = va / levelSize level
  · rw [hafter va' hva' hin]
    rw [view_through hl hva hva' hin hp hold]
    rcases hentry with h0 | h0
    · rw [h0, decode_zero]
      have hcovers := hfits.covers_iff.mp hin
      refine .inr ⟨rfl, ?_, _, rfl, hreq va' hin⟩
      -- The leaf lies inside the range.
      unfold InRange
      omega
    · rw [h0, hdec]
      exact .inl rfl
  · exact .inl (hout va' hva' hin)

/-- Why a leaf cannot be written: one of its addresses translates, or there is a table below it. -/
def Obstructed (t : TableSet n) (level va : Nat) : Prop :=
  (∃ va', va' < 2 ^ 39 ∧ va' / levelSize level = va / levelSize level ∧ (t.view va').isSome) ∨
    ∃ c, t.reach (route level va) = some c

/-- An entry that is neither free nor a link is a leaf, so the addresses below it translate. -/
theorem Wf.obstructed (h : t.Wf) (hl : IsLevel level) (hva : va < 2 ^ 39)
    (hp : t.reach (route (level - 1) va) = some table)
    (hne : t.storage table (indexFor level va) ≠ 0) : t.Obstructed level va := by
  obtain ⟨hlevel, hroute⟩ := route_concat hl va
  have hgood := h.good hp (indexFor level va)
  rw [length_route] at hgood
  rcases hdec : decode t.basePa (level - 1) (t.storage table (indexFor level va)) with
    _ | c | w | _
  · unfold decode at hdec
    rw [if_neg hne] at hdec
    split_ifs at hdec
  · right
    rw [← hroute]
    refine ⟨c, Radix.follow_concat_eq_some.mpr ⟨table, hp, ?_⟩⟩
    rw [length_route]
    exact hdec
  · left
    refine ⟨va, hva, rfl, ?_⟩
    rw [view_through hl hva hva rfl hp (fun c hc => by cases hdec.symm.trans hc), hdec]
    rfl
  · exact absurd hdec hgood

theorem mapLeaf_spec (h : t.Wf) (hfits : Fits mapping level va pa) :
    (∃ t', (mapLeaf level va pa mapping).run t = .ok () t' ∧ Leafed mapping level va pa t t') ∨
    ∃ e t', (mapLeaf level va pa mapping).run t = .error e t' ∧ Progress mapping t t' ∧
      (e = .tableExhausted ∨ t.Obstructed level va) := by
  have hl := hfits.isLevel
  have hdepth : 0 + (level - 1) ≤ 2 := by
    rcases hl with rfl | rfl | rfl <;> decide
  unfold mapLeaf
  simp only [EStateM.run_bind]
  rcases descendAll_spec hfits.va_lt (level - 1) 0 0 h hdepth rfl with
    ⟨table, t', hrun, hdown⟩ | ⟨e, t', hrun, hwf, hsame, hgrows, hwhy⟩
  · rw [hrun]
    rw [Nat.zero_add] at hdown
    simp only [EStateM.run_get, run_ite]
    have hprogress : Progress mapping t t' :=
      ⟨hdown.wf, hdown.same.extends mapping, hdown.grows⟩
    by_cases hconf : t'.storage table (indexFor level va) ≠ 0 ∧
        t'.storage table (indexFor level va) ≠ leafDescriptor level pa mapping
    · rw [if_pos hconf]
      refine Or.inr ⟨_, t', rfl, hprogress, Or.inr ?_⟩
      -- A table made by the descent would be empty, so the entry was there before.
      rcases hdown.fresh with rfl | hzero
      · exact h.obstructed hl hfits.va_lt hdown.reached hconf.1
      · exact absurd (hzero _) hconf.1
    · rw [if_neg hconf]
      have hentry : t'.storage table (indexFor level va) = 0 ∨
          t'.storage table (indexFor level va) = leafDescriptor level pa mapping := by
        by_contra hne
        exact hconf (not_or.mp hne)
      have hleaf := hdown.wf.setLeaf hfits hdown.reached hentry
      refine Or.inl ⟨_, rfl, hprogress.trans hleaf.toProgress, hleaf.mapped, ?_, hleaf.present, ?_⟩
      · intro va' hva' hout
        rw [hleaf.outside va' hva' hout, hdown.same.view]
      intro p other hp
      rcases hleaf.paths hp with hp | hp
      · rcases hdown.paths hp with hp | hp
        · exact Or.inl hp
        · obtain ⟨rest, hrest⟩ := route_prefix hl va
          refine Or.inr (hp.trans ?_)
          rw [hrest, ← (route_concat hl va).2, List.append_assoc]
          exact List.prefix_append ..
      · exact Or.inr hp
  · rw [hrun]
    refine Or.inr ⟨e, t', rfl, ⟨hwf, hsame.extends mapping, hgrows⟩, hwhy.imp_right ?_⟩
    exact fun hsome => Or.inl ⟨va, hfits.va_lt, rfl, hsome⟩

/-! ## The loop -/

theorem alignedFor_iff {k : Nat} :
    alignedFor va pa (2 ^ k) = true ↔ va % 2 ^ k = 0 ∧ pa % 2 ^ k = 0 := by
  unfold alignedFor
  rw [beq_iff_eq, Nat.and_two_pow_sub_one_eq_mod, lor_mod_eq_zero]

/-- The loop picks a leaf that fits: aligned on both sides and no larger than what remains. -/
theorem chunkOf_spec (hva : va % 4096 = 0) (hpa : pa % 4096 = 0) (hrem : remaining % 4096 = 0)
    (hpos : remaining ≠ 0) :
    IsLevel (chunkOf va pa remaining).1 ∧
    (chunkOf va pa remaining).2 = levelSize (chunkOf va pa remaining).1 ∧
    va % (chunkOf va pa remaining).2 = 0 ∧ pa % (chunkOf va pa remaining).2 = 0 ∧
    (chunkOf va pa remaining).2 ≤ remaining ∧ 4096 ≤ (chunkOf va pa remaining).2 ∧
    (chunkOf va pa remaining).2 % 4096 = 0 := by
  unfold chunkOf
  split
  · rename_i h1
    obtain ⟨hva', hpa'⟩ := (alignedFor_iff (k := 30)).mp h1.1
    exact ⟨.inl rfl, rfl, hva', hpa', h1.2, by decide, by decide⟩
  · split
    · rename_i h2
      obtain ⟨hva', hpa'⟩ := (alignedFor_iff (k := 21)).mp h2.1
      exact ⟨.inr (.inl rfl), rfl, hva', hpa', h2.2, by decide, by decide⟩
    · refine ⟨.inr (.inr rfl), rfl, hva, hpa, ?_, by decide, by decide⟩
      show 4096 ≤ remaining
      omega

/-- Where the loop stands in the request. -/
structure Cursor (mapping : Mapping) (va pa remaining : Nat) : Prop where
  va_page : va % 4096 = 0
  pa_page : pa % 4096 = 0
  remaining_page : remaining % 4096 = 0
  start : mapping.va ≤ va
  stop : va + remaining = mapping.va + mapping.size
  va_end : va + remaining ≤ 2 ^ 39
  pa_end : pa + remaining ≤ 2 ^ 48
  offset : pa + mapping.va = mapping.pa + va

/-- The leaf that is chosen fits, and the loop stands behind it afterwards. -/
theorem Cursor.next (h : Cursor mapping va pa remaining) (hpos : remaining ≠ 0) :
    ∃ level, chunkOf va pa remaining = (level, levelSize level) ∧ Fits mapping level va pa ∧
      4096 ≤ levelSize level ∧ levelSize level ≤ remaining ∧
      Cursor mapping (va + levelSize level) (pa + levelSize level)
        (remaining - levelSize level) := by
  obtain ⟨hva, hpa, hrem, hstart, hstop, hva39, hpa48, hoff⟩ := h
  obtain ⟨hl, hsize, hvaAlign, hpaAlign, hfit, hmin, hpage⟩ := chunkOf_spec hva hpa hrem hpos
  generalize chunkOf va pa remaining = choice at *
  obtain ⟨level, chunk⟩ := choice
  simp only at hl hsize hvaAlign hpaAlign hfit hmin hpage
  subst hsize
  refine ⟨level, rfl, ⟨hl, ?_, hvaAlign, hpaAlign, ?_, hstart, ?_, hoff⟩, hmin, hfit,
    ⟨?_, ?_, ?_, ?_, ?_, ?_, ?_, ?_⟩⟩ <;> omega

/-- The rule for the loop: a property of the place and the tables that every leaf carries on. -/
theorem mapLoop_rule (P : Nat → TableSet n → Prop) (Q : TranslationError → TableSet n → Prop)
    (hleaf : ∀ level va pa t, Fits mapping level va pa → P va t →
      (∃ t', (mapLeaf level va pa mapping).run t = .ok () t' ∧ P (va + levelSize level) t') ∨
      ∃ e t', (mapLeaf level va pa mapping).run t = .error e t' ∧ Q e t') :
    ∀ (fuel va pa remaining : Nat) (t : TableSet n), Cursor mapping va pa remaining →
      remaining ≤ fuel → P va t →
      (∃ t', (mapLoop mapping fuel va pa remaining).run t = .ok () t' ∧ P (va + remaining) t') ∨
      ∃ e t', (mapLoop mapping fuel va pa remaining).run t = .error e t' ∧ Q e t' := by
  intro fuel
  induction fuel with
  | zero =>
    intro va pa remaining t _ hfuel hP
    cases Nat.le_zero.mp hfuel
    exact Or.inl ⟨t, rfl, hP⟩
  | succ fuel ih =>
    intro va pa remaining t hcursor hfuel hP
    rw [mapLoop]
    by_cases hpos : remaining ≠ 0
    · obtain ⟨level, hchunk, hfits, hmin, hfit, hnext⟩ := hcursor.next hpos
      rw [if_pos hpos, hchunk]
      simp only [EStateM.run_bind]
      rcases hleaf level va pa t hfits hP with ⟨t', hrun, hP'⟩ | ⟨e, t', hrun, hQ⟩
      · rw [hrun]
        have hrest := ih _ _ _ t' hnext (by omega) hP'
        rw [show va + levelSize level + (remaining - levelSize level) = va + remaining by omega]
          at hrest
        exact hrest
      · rw [hrun]
        exact Or.inr ⟨e, t', rfl, hQ⟩
    · rw [if_neg hpos]
      rw [not_not.mp hpos]
      exact Or.inl ⟨t, rfl, hP⟩

/-- The whole loop: what is behind the cursor is mapped, and later leaves keep it. -/
theorem mapLoop_spec {fuel : Nat} (h : t.Wf) (hcursor : Cursor mapping va pa remaining)
    (hfuel : remaining ≤ fuel) :
    (∃ t', (mapLoop mapping fuel va pa remaining).run t = .ok () t' ∧ Progress mapping t t' ∧
      ∀ va', va ≤ va' → va' < va + remaining →
        ∃ tr, t'.view va' = some tr ∧ Requested mapping va' tr) ∨
    ∃ e t', (mapLoop mapping fuel va pa remaining).run t = .error e t' ∧ Progress mapping t t' := by
  have hend := hcursor.va_end
  have hstop := hcursor.stop
  refine mapLoop_rule
    (fun place s => Progress mapping t s ∧ ∀ va', va ≤ va' → va' < place →
      ∃ tr, s.view va' = some tr ∧ Requested mapping va' tr)
    (fun _ s => Progress mapping t s) ?_ fuel va pa remaining t hcursor hfuel
    ⟨Progress.refl h mapping, fun va' hlo hhi => absurd hhi (not_lt.mpr hlo)⟩
  rintro level place pa s hfits ⟨hprogress, hmapped⟩
  have hwithin := hfits.stop
  rcases mapLeaf_spec hprogress.wf hfits with ⟨s', hrun, hleaf⟩ | ⟨e, s', hrun, hstep, -⟩
  · refine Or.inl ⟨s', hrun, hprogress.trans hleaf.toProgress, ?_⟩
    intro va' hlo hhi
    by_cases hbehind : va' < place
    · obtain ⟨tr, htr, hreq⟩ := hmapped va' hlo hbehind
      exact ⟨tr, hleaf.added.keep (by omega) htr, hreq⟩
    · exact hleaf.mapped va' (by omega) (hfits.covers_iff.mpr ⟨by omega, hhi⟩)
  · exact Or.inr ⟨e, s', hrun, hprogress.trans hstep⟩

/-! ## Whole maps -/

theorem validateMapping_ok (h : t.validateMapping mapping = .ok ()) :
    mapping.size ≠ 0 ∧ mapping.va % 4096 = 0 ∧ mapping.pa % 4096 = 0 ∧ mapping.size % 4096 = 0 ∧
      mapping.va + mapping.size ≤ 2 ^ 39 ∧ mapping.pa + mapping.size ≤ 2 ^ t.paBits := by
  unfold validateMapping at h
  split at h
  · cases h
  rename_i hsize
  split at h
  · cases h
  rename_i hal
  rw [Bool.not_eq_true', Bool.not_eq_false, isPageAligned_iff] at hal
  have hmod : (mapping.va ||| mapping.pa ||| mapping.size) % 2 ^ 12 = 0 := hal
  rw [lor_mod_eq_zero, lor_mod_eq_zero] at hmod
  obtain ⟨⟨hva, hpa⟩, hsz⟩ := hmod
  split at h
  · cases h
  · cases h
  rename_i vaEnd paEnd hvaEnd hpaEnd
  obtain ⟨-, rfl⟩ := checkedAdd_eq_some.mp hvaEnd
  obtain ⟨-, rfl⟩ := checkedAdd_eq_some.mp hpaEnd
  split at h
  · cases h
  rename_i h39
  split at h
  · cases h
  rename_i hbits
  rw [Nat.shiftLeft_eq, Nat.one_mul] at hbits
  exact ⟨hsize, hva, hpa, hsz, not_lt.mp h39, not_lt.mp hbits⟩

/-- A request that passed validation, from its start. -/
theorem Wf.cursor (h : t.Wf) (hval : t.validateMapping mapping = .ok ()) :
    Cursor mapping mapping.va mapping.pa mapping.size := by
  obtain ⟨-, hva, hpa, hsize, h39, hbits⟩ := validateMapping_ok hval
  have hpow : 2 ^ t.paBits ≤ 2 ^ 48 := Nat.pow_le_pow_right (by decide) h.pa_bits
  exact ⟨hva, hpa, hsize, le_rfl, rfl, h39, hbits.trans hpow, rfl⟩

theorem map_run (t : TableSet n) (mapping : Mapping) :
    (map mapping).run t =
      match t.validateMapping mapping with
      | .error e => .error e t
      | .ok _ => (mapLoop mapping mapping.size mapping.va mapping.pa mapping.size).run t := by
  unfold map
  simp only [EStateM.run_bind, EStateM.run_get]
  cases t.validateMapping mapping <;> rfl

theorem map_spec (h : t.Wf) (mapping : Mapping) :
    (∃ t', (map mapping).run t = .ok () t' ∧ Progress mapping t t' ∧
      mapping.va + mapping.size ≤ 2 ^ 39 ∧ ∀ va, InRange mapping va →
        ∃ tr, t'.view va = some tr ∧ Requested mapping va tr) ∨
    ∃ e t', (map mapping).run t = .error e t' ∧ Progress mapping t t' := by
  rw [map_run]
  rcases hval : t.validateMapping mapping with e | u
  · exact Or.inr ⟨e, t, rfl, Progress.refl h mapping⟩
  · have hcursor := h.cursor hval
    rcases mapLoop_spec h hcursor le_rfl with ⟨t', hrun, hprogress, hmapped⟩ | hfailed
    · exact Or.inl ⟨t', hrun, hprogress, hcursor.va_end, fun va hin => hmapped va hin.1 hin.2⟩
    · exact Or.inr hfailed

/-- A new table set is one cleared page, in an arena that fits. -/
theorem new_ok {basePa paBits : Nat} (hnew : new storage basePa paBits = .ok t) :
    t = withPage ⟨storage, 0, basePa, paBits⟩ ∧ paBits ≤ 48 ∧ basePa % 4096 = 0 ∧ 0 < n ∧
      basePa + 4096 * n ≤ 2 ^ 48 := by
  unfold new at hnew
  split at hnew
  · cases hnew
  rename_i hbits
  have hbits := (not_not.mp hbits).2
  split at hnew
  · cases hnew
  rename_i hal
  rw [Bool.not_eq_true', Bool.not_eq_false, isPageAligned_iff] at hal
  split at hnew
  · cases hnew
  split at hnew
  · cases hnew
  rename_i hn
  split at hnew
  · cases hnew
  rename_i byteLen hlen
  obtain ⟨-, rfl⟩ := checkedMul_eq_some.mp hlen
  split at hnew
  · cases hnew
  rename_i stop hstop
  obtain ⟨-, rfl⟩ := checkedAdd_eq_some.mp hstop
  split at hnew
  · cases hnew
  rename_i hend
  rw [allocatePage_run, if_neg (Ne.symm hn)] at hnew
  cases hnew
  rw [Nat.shiftLeft_eq, Nat.one_mul, not_lt] at hend
  have hpow : 2 ^ paBits ≤ 2 ^ 48 := Nat.pow_le_pow_right (by decide) hbits
  have hend' : basePa + n * 4096 ≤ 2 ^ paBits := hend
  exact ⟨rfl, hbits, hal, Nat.pos_of_ne_zero hn, by omega⟩

/-- The root is the only table, and it has just been cleared. -/
theorem new_reach {basePa paBits : Nat} (hnew : new storage basePa paBits = .ok t)
    {p : List (Fin 512)} (hp : t.reach p = some table) : p = [] ∧ table = 0 := by
  obtain ⟨rfl, -⟩ := new_ok hnew
  cases p with
  | nil =>
    cases hp
    exact ⟨rfl, rfl⟩
  | cons i rest => cases hp

theorem new_wf {basePa paBits : Nat} (hnew : new storage basePa paBits = .ok t) :
    t.Wf := by
  have hreach : ∀ p table, t.reach p = some table → p = [] ∧ table = 0 :=
    fun _ _ => new_reach hnew
  obtain ⟨rfl, hbits, hbase, hn, hend⟩ := new_ok hnew
  have hzero : ∀ i, decode basePa 0 ((withPage (n := n)
      ⟨storage, 0, basePa, paBits⟩).storage 0 i) = .empty := fun _ => rfl
  refine ⟨Nat.one_pos, hn, hbits, hbase, hend, Radix.Tree.single hzero, ?_⟩
  intro p table hp
  rw [(hreach p table hp).2]
  exact Nat.one_pos

/-- Any sequence of maps, failed ones included. -/
def runMaps (t : TableSet n) (calls : List Mapping) : TableSet n :=
  calls.foldl (fun t mapping => Fallible.state ((map mapping).run t)) t

theorem Wf.runMaps (h : t.Wf) (calls : List Mapping) : (t.runMaps calls).Wf := by
  refine foldl_invariant _ TableSet.Wf ?_ calls h
  intro t mapping h
  rcases map_spec h mapping with ⟨t', hrun, hprogress, -⟩ | ⟨e, t', hrun, hprogress⟩
  · rw [hrun]
    exact hprogress.wf
  · rw [hrun]
    exact hprogress.wf

theorem Wf.walk_not_corrupt (h : t.Wf) (va : Nat) :
    t.walk va ≠ .error .corruptTable := by
  by_cases hva : va < 2 ^ 39
  · rw [walk_eq h hva]
    exact nofun
  · rw [walk_of_le (not_lt.mp hva)]
    exact nofun

/-- A walk that translates is the view of the address. -/
theorem Wf.walk_eq_some (h : t.Wf) {tr : Translation} :
    t.walk va = .ok (some tr) ↔ va < 2 ^ 39 ∧ t.view va = some tr := by
  by_cases hva : va < 2 ^ 39
  · rw [walk_eq h hva, Except.ok.injEq]
    exact ⟨fun hv => ⟨hva, hv⟩, And.right⟩
  · rw [walk_of_le (not_lt.mp hva)]
    exact ⟨nofun, fun h => absurd h.1 hva⟩

/-- The builder, over every arena, base, width and sequence of maps: a map that returns `Ok` has
mapped exactly its range, one that fails has changed no translation and added only requested ones,
no walk ever meets a corrupt table, and the arena is never overrun. -/
theorem map_correct {storage : Arena} {basePa paBits : Nat} {t₀ : TableSet n}
    (hnew : new storage basePa paBits = .ok t₀) (calls : List Mapping) (mapping : Mapping) :
    (t₀.runMaps calls).usedPages ≤ n ∧
    (∀ va, (t₀.runMaps calls).walk va ≠ .error .corruptTable) ∧
    match (map mapping).run (t₀.runMaps calls) with
    | .ok _ t' =>
      (∀ va, InRange mapping va → ∃ tr, t'.walk va = .ok (some tr) ∧ Requested mapping va tr) ∧
      ∀ va, ¬ InRange mapping va → t'.walk va = (t₀.runMaps calls).walk va
    | .error _ t' =>
      (∀ va tr, (t₀.runMaps calls).walk va = .ok (some tr) → t'.walk va = .ok (some tr)) ∧
      ∀ va tr, t'.walk va = .ok (some tr) → (t₀.runMaps calls).walk va ≠ .ok (some tr) →
        InRange mapping va ∧ Requested mapping va tr := by
  have h := (new_wf hnew).runMaps calls
  generalize t₀.runMaps calls = t at h ⊢
  refine ⟨h.used_le, h.walk_not_corrupt, ?_⟩
  rcases map_spec h mapping with
    ⟨t', hrun, ⟨hwf, hext, -⟩, h39, hmapped⟩ | ⟨e, t', hrun, ⟨hwf, hext, -⟩⟩
  · rw [hrun]
    refine ⟨?_, ?_⟩
    · intro va hin
      obtain ⟨tr, htr, hreq⟩ := hmapped va hin
      exact ⟨tr, hwf.walk_eq_some.mpr ⟨lt_of_lt_of_le hin.2 h39, htr⟩, hreq⟩
    · intro va hout
      by_cases hva : va < 2 ^ 39
      · rw [walk_eq hwf hva, walk_eq h hva]
        rcases hext va hva with heq | ⟨-, hin, -⟩
        · rw [heq]
        · exact absurd hin hout
      · rw [walk_of_le (not_lt.mp hva), walk_of_le (not_lt.mp hva)]
  · rw [hrun]
    refine ⟨?_, ?_⟩
    · intro va tr htr
      obtain ⟨hva, hview⟩ := h.walk_eq_some.mp htr
      exact hwf.walk_eq_some.mpr ⟨hva, hext.keep hva hview⟩
    · intro va tr htr hne
      obtain ⟨hva, hview⟩ := hwf.walk_eq_some.mp htr
      rcases hext va hva with heq | ⟨-, hin, tr', htr', hreq⟩
      · exact absurd (h.walk_eq_some.mpr ⟨hva, heq.symm.trans hview⟩) hne
      · rw [hview] at htr'
        cases htr'
        exact ⟨hin, hreq⟩

/-- An arena of three pages full of stale words. -/
def staleTables : Except TranslationError (TableSet 3) := new (fun _ _ => 0x7ff) 0x30000000 44

theorem map_correct_staleTables :
    ∃ t₀, staleTables = .ok t₀ ∧
      ∀ va, (t₀.runMaps [⟨0x40001000, 0x80001000, 0x1000, .normal, true, false⟩]).walk va ≠
        .error .corruptTable := by
  have hnew : new (fun _ _ => 0x7ff) 0x30000000 44 =
      .ok (withPage (n := 3) ⟨fun _ _ => 0x7ff, 0, 0x30000000, 44⟩) := rfl
  exact ⟨_, hnew, (map_correct hnew _
    ⟨0x40001000, 0x80001000, 0x1000, .normal, true, false⟩).2.1⟩

end TableSet

end Tvisor.El2Stage1
