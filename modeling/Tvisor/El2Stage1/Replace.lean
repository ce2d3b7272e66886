/-
# Tvisor.El2Stage1.Replace -- the effect of replacing one data page

`replace_data_page` works on a level-3 entry that it reads first: it goes on only if the entry is
the Normal, writable, non-executable leaf of the old page. All its stores go to that one entry, and
a level-3 entry lies on the route of the addresses of one page only, so no other translation can
move.
-/
import Tvisor.El2Stage1.Builder

namespace Tvisor.El2Stage1

open Fallible Page Words

/-- Normal, writable and not executable. -/
def IsDataPage (view : Option Translation) : Prop :=
  ∃ tr, view = some tr ∧ tr.memoryType = .normal ∧ tr.writable = true ∧ tr.executable = false

variable {index : Fin 512}

namespace TableSet

variable {n : Nat} {t : TableSet n} {va oldPa newPa table : Nat}

/-- The descent of `replace_data_page` follows the route of the address. -/
theorem existingTable_iff (h : t.Wf) {va : Nat} : ∀ (m d table : Nat) {c : Nat},
    d + m ≤ 2 → t.reach (route d va) = some table →
    (t.existingTable va (List.range' (d + 1) m) table = .ok c ↔
      t.reach (route (d + m) va) = some c) := by
  intro m
  induction m with
  | zero =>
    intro d table c _ hp
    show Except.ok table = Except.ok c ↔ t.reach (route d va) = some c
    rw [hp, Except.ok.injEq, Option.some.injEq]
  | succ m ih =>
    intro d table c hdm hp
    have hlen : (route d va).length < 2 := by
      rw [length_route]
      omega
    have hdepth : d + (m + 1) = d + 1 + m := by omega
    rw [List.range'_succ, existingTable]
    rcases h.entry_cases hp hlen (indexFor (d + 1) va) with
      hempty | ⟨hlink, child, hindex, hchild⟩ | ⟨hlink, hleaf⟩
    · rw [hempty, if_pos (by decide)]
      refine ⟨fun hok => (nomatch hok), fun hc => ?_⟩
      obtain ⟨child, hchild⟩ := reach_route_add hc
      rw [route_succ] at hchild
      exact absurd hchild (reach_of_empty hp hempty _)
    · rw [if_neg (not_not.mpr hlink), hindex, hdepth]
      rw [← route_succ] at hchild
      exact ih (d + 1) child (by omega) hchild
    · rw [if_pos hlink]
      refine ⟨fun hok => (nomatch hok), fun hc => ?_⟩
      obtain ⟨child, hchild⟩ := reach_route_add hc
      rw [route_succ] at hchild
      obtain ⟨other, hother, hdec⟩ := Radix.follow_concat_eq_some.mp hchild
      cases hp.symm.trans hother
      cases hleaf.symm.trans hdec

/-- Everything that holds once the checks before the first store have passed. -/
structure Target (t : TableSet n) (va oldPa newPa table : Nat) (index : Fin 512) : Prop where
  va_lt : va < 2 ^ 39
  va_aligned : va % 4096 = 0
  old_aligned : oldPa % 4096 = 0
  old_lt : oldPa < 2 ^ 48
  new_aligned : newPa % 4096 = 0
  new_lt : newPa < 2 ^ 48
  index_eq : index = indexFor 3 va
  reached : t.reach (route 2 va) = some table
  entry : t.storage table (indexFor 3 va) = leafDescriptor 3 oldPa (dataPage va oldPa)

/-- What the checks before the first store amount to. -/
theorem replaceTarget_eq_ok :
    t.replaceTarget va oldPa newPa = .ok (table, index) ↔
      t.validateMapping (dataPage va newPa) = .ok () ∧
      t.validateMapping (dataPage va oldPa) = .ok () ∧
      isPageAligned oldPa = true ∧ oldPa ≠ newPa ∧ t.existingTable va [1, 2] 0 = .ok table ∧
      t.storage table (indexFor 3 va) = leafDescriptor 3 oldPa (dataPage va oldPa) ∧
      index = indexFor 3 va := by
  unfold replaceTarget
  constructor
  · intro h
    obtain ⟨⟨⟩, hnew, h⟩ := bind_eq_ok.mp h
    obtain ⟨⟨⟩, hold, h⟩ := bind_eq_ok.mp h
    obtain ⟨⟨⟩, hargs, h⟩ := bind_eq_ok.mp h
    obtain ⟨c, htable, h⟩ := bind_eq_ok.mp h
    obtain ⟨⟨⟩, hentry, h⟩ := bind_eq_ok.mp h
    obtain ⟨haligned, hne⟩ := not_or.mp (ite_throw_eq_ok.mp hargs)
    cases h
    refine ⟨hnew, hold, ?_, hne, htable, not_not.mp (ite_throw_eq_ok.mp hentry), rfl⟩
    simpa using haligned
  · rintro ⟨hnew, hold, haligned, hne, htable, hentry, rfl⟩
    have hargs : ¬ ((!isPageAligned oldPa) = true ∨ oldPa = newPa) := by
      rw [haligned]
      simpa using hne
    apply bind_eq_ok.mpr
    refine ⟨(), hnew, bind_eq_ok.mpr ⟨(), hold, bind_eq_ok.mpr ⟨(), ite_throw_eq_ok.mpr hargs, ?_⟩⟩⟩
    apply bind_eq_ok.mpr
    exact ⟨table, htable,
      bind_eq_ok.mpr ⟨(), ite_throw_eq_ok.mpr (not_not.mpr hentry), rfl⟩⟩

theorem replaceTarget_ok (h : t.Wf) (hok : t.replaceTarget va oldPa newPa = .ok (table, index)) :
    Target t va oldPa newPa table index := by
  obtain ⟨hnew, hold, -, -, htable, hentry, rfl⟩ := replaceTarget_eq_ok.mp hok
  obtain ⟨-, hva, hnewAl, -, h39, hnewBits⟩ := validateMapping_ok hnew
  obtain ⟨-, -, holdAl, -, -, holdBits⟩ := validateMapping_ok hold
  have hpow : 2 ^ t.paBits ≤ 2 ^ 48 := Nat.pow_le_pow_right (by decide) h.pa_bits
  change va + 4096 ≤ 2 ^ 39 at h39
  change newPa + 4096 ≤ 2 ^ t.paBits at hnewBits
  change oldPa + 4096 ≤ 2 ^ t.paBits at holdBits
  exact ⟨by omega, hva, holdAl, by omega, hnewAl, by omega, rfl,
    (existingTable_iff h 2 0 0 le_rfl rfl).mp htable, hentry⟩

/-- The tables differ in nothing but the translation of one page, which was and, when it is there,
is a data page. -/
structure Rewritten (va : Nat) (t s : TableSet n) : Prop where
  wf : s.Wf
  used_eq : s.used = t.used
  outside : ∀ va', va' < 2 ^ 39 → ¬ va' / 4096 = va / 4096 → s.view va' = t.view va'
  before : ∀ va', va' < 2 ^ 39 → va' / 4096 = va / 4096 → IsDataPage (t.view va')
  after : ∀ va', va' < 2 ^ 39 → va' / 4096 = va / 4096 →
    s.view va' = none ∨ IsDataPage (s.view va')

/-- A data-page leaf in the entry of an address is what a walk of its page finds. -/
theorem isDataPage_of_entry {va pa table : Nat} (hva : va < 2 ^ 39) (hvaAlign : va % 4096 = 0)
    (hpaAlign : pa % 4096 = 0) (hpa : pa < 2 ^ 48) (hp : t.reach (route 2 va) = some table)
    (hentry : t.storage table (indexFor 3 va) = leafDescriptor 3 pa (dataPage va pa)) {va' : Nat}
    (hva' : va' < 2 ^ 39) (hin : va' / 4096 = va / 4096) :
    IsDataPage (t.view va') := by
  have hl : IsLevel 3 := .inr (.inr rfl)
  have hdec : decode t.basePa (3 - 1) (t.storage table (indexFor 3 va)) =
      .leaf (leafDescriptor 3 pa (dataPage va pa)) := by
    rw [hentry]
    exact decode_leaf hl hpaAlign hpa
  have hview := view_through (t := t) hl hva hva' hin hp (by
    intro c hc
    rw [hdec] at hc
    cases hc)
  rw [hdec] at hview
  obtain ⟨-, htype, hwrite, hexec⟩ := requested_leaf (dataPage va pa) hl hvaAlign hpaAlign hpa
    le_rfl rfl hin
  exact ⟨_, hview, htype, hwrite, hexec⟩

/-- A word of a level-3 table is no link, whatever is stored there. -/
theorem level3_ne_table (base w c : Nat) : decode base (3 - 1) w ≠ .table c := by
  intro hc
  unfold decode at hc
  split_ifs at hc
  omega

/-- So stores there leave the tables where they are. -/
theorem Wf.reach_setEntry3 (h : t.Wf) {va table : Nat} (hp : t.reach (route 2 va) = some table)
    (w : Nat) (p : List (Fin 512)) :
    (t.setEntry table (indexFor 3 va) w).reach p = t.reach p := by
  apply Radix.follow_set h.tree hp
  · rw [length_route]
    exact level3_ne_table _ _
  · rw [length_route]
    exact level3_ne_table _ _

/-- The break: the entry is cleared. -/
theorem Target.broken (h : t.Wf) (ht : Target t va oldPa newPa table index) :
    Rewritten va t (t.setEntry table index 0) := by
  obtain ⟨hva, hvaAl, holdAl, hold, -, -, rfl, hp, hentry⟩ := ht
  have hl : IsLevel 3 := .inr (.inr rfl)
  have hzero : decode t.basePa (3 - 1) 0 = .empty := decode_zero _ _
  obtain ⟨hwf, hreach, hout⟩ := h.setEntry (w := 0) hl hva hp (level3_ne_table _ _)
    (level3_ne_table _ _) (fun hb => by rw [hzero] at hb; cases hb)
  have hstored : (t.setEntry table (indexFor 3 va) 0).storage table (indexFor 3 va) = 0 :=
    Radix.set_same
  refine ⟨hwf, rfl, hout, ?_, ?_⟩
  · intro va' hva' hin
    exact isDataPage_of_entry hva hvaAl holdAl hold hp hentry hva' hin
  · intro va' hva' hin
    left
    rw [view_through hl hva hva' hin ((hreach _).trans hp) (level3_ne_table _ _), hstored,
      decode_zero]

/-- The make: the leaf of the new page goes into the cleared entry. -/
theorem Target.made (h : t.Wf) (ht : Target t va oldPa newPa table index) :
    Rewritten va t ((t.setEntry table index 0).setEntry table index
      (leafDescriptor 3 newPa (dataPage va newPa))) := by
  have hbroken := ht.broken h
  obtain ⟨hva, hvaAl, -, -, hnewAl, hnew, rfl, hp, -⟩ := ht
  have hl : IsLevel 3 := .inr (.inr rfl)
  have hp' := (h.reach_setEntry3 hp 0 (route 2 va)).trans hp
  have hdec : decode (t.setEntry table (indexFor 3 va) 0).basePa (3 - 1)
      (leafDescriptor 3 newPa (dataPage va newPa)) =
        .leaf (leafDescriptor 3 newPa (dataPage va newPa)) := decode_leaf hl hnewAl hnew
  obtain ⟨hwf, hreach, hout⟩ := hbroken.wf.setEntry
    (w := leafDescriptor 3 newPa (dataPage va newPa)) hl hva hp' (level3_ne_table _ _)
    (level3_ne_table _ _) (fun hb => by rw [hdec] at hb; cases hb)
  refine ⟨hwf, rfl, ?_, hbroken.before, ?_⟩
  · intro va' hva' hin
    rw [hout va' hva' hin]
    exact hbroken.outside va' hva' hin
  · intro va' hva' hin
    right
    exact isDataPage_of_entry hva hvaAl hnewAl hnew ((hreach _).trans hp') Radix.set_same hva' hin

/-- Whatever the callbacks answer, the tables they see and the tables left behind are the old ones
or a rewriting of the one page. -/
theorem replaceDataPage_states (h : t.Wf) (va oldPa newPa : Nat)
    (first second : Except TranslationError Unit) :
    ∀ s ∈ (t.replaceDataPage va oldPa newPa first second).2.1 ::
      (t.replaceDataPage va oldPa newPa first second).2.2, s = t ∨ Rewritten va t s := by
  intro s hs
  unfold replaceDataPage at hs
  rcases htarget : t.replaceTarget va oldPa newPa with e | ⟨table, index⟩
  · rw [htarget] at hs
    exact .inl (List.mem_singleton.mp hs)
  · have ht := replaceTarget_ok h htarget
    rw [htarget] at hs
    right
    rcases first with e | u
    · simp only [List.mem_cons, List.not_mem_nil, or_false, or_self] at hs
      rw [hs]
      exact ht.broken h
    · simp only [List.mem_cons, List.not_mem_nil, or_false] at hs
      rcases hs with rfl | rfl | rfl
      · exact ht.made h
      · exact ht.broken h
      · exact ht.made h

end TableSet

end Tvisor.El2Stage1
