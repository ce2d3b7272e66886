/-
# Tvisor.El2Stage1.BreakBeforeMake -- the order of stores in a page replacement

`replace_data_page` again, now with a record of its stores and of its calls of `synchronize`. It
refuses without a store, or it clears the entry, synchronizes, writes the new leaf and synchronizes.

Which of the two happens is decided by comparing one word. Every leaf in tables that were built by
maps and replacements is a word of `leaf_descriptor`, and such a word can be read back from what a
walk reports. So the comparison decides whether the address is a data page at the old address.
-/
import Tvisor.El2Stage1.Replace

namespace Tvisor.El2Stage1

open Fallible Page Words

/-! ## The source, with its stores -/

/-- What happens to an entry. -/
inductive Access where
  | store (table : Nat) (index : Fin 512) (word : Nat)
  | synchronize (table : Nat) (index : Fin 512)
  deriving DecidableEq, Repr

/-- The tables, and what has happened so far. -/
structure Traced (n : Nat) where
  tables : TableSet n
  trace : List Access

namespace TableSet

variable {n va oldPa newPa : Nat} {t : TableSet n} {first second : Except TranslationError Unit}

/-- `write_volatile(entry, word)` -/
def writeEntry (table : Nat) (index : Fin 512) (word : Nat) :
    EStateM TranslationError (Traced n) Unit :=
  modify fun s => ⟨s.tables.setEntry table index word, s.trace ++ [.store table index word]⟩

/-- `synchronize(entry)?`, when this is its answer. -/
def callSynchronize (answer : Except TranslationError Unit) (table : Nat) (index : Fin 512) :
    EStateM TranslationError (Traced n) Unit := do
  modify fun s => { s with trace := s.trace ++ [.synchronize table index] }
  lift answer

/-- `replace_data_page`, for a callback that gives these two answers. -/
def replaceTraced (va oldPa newPa : Nat) (first second : Except TranslationError Unit) :
    EStateM TranslationError (Traced n) Unit := do
  let s ← get
  let (table, index) ← lift (s.tables.replaceTarget va oldPa newPa)
  writeEntry table index 0
  callSynchronize first table index
  writeEntry table index (leafDescriptor 3 newPa (dataPage va newPa))
  callSynchronize second table index

/-- Without the record it is the function of `Tvisor.El2Stage1`. -/
theorem replaceTraced_tables (t : TableSet n) (trace : List Access) :
    outcome ((replaceTraced va oldPa newPa first second).run ⟨t, trace⟩) =
        (t.replaceDataPage va oldPa newPa first second).1 ∧
      (Fallible.state ((replaceTraced va oldPa newPa first second).run ⟨t, trace⟩)).tables =
        (t.replaceDataPage va oldPa newPa first second).2.1 := by
  unfold replaceTraced replaceDataPage
  rw [EStateM.run_bind, EStateM.run_get]
  dsimp only
  rw [EStateM.run_bind]
  rcases t.replaceTarget va oldPa newPa with e | ⟨table, index⟩
  · exact ⟨rfl, rfl⟩
  · rcases first with e | _
    · exact ⟨rfl, rfl⟩
    · rcases second with e | _
      · exact ⟨rfl, rfl⟩
      · exact ⟨rfl, rfl⟩

/-- A refused replacement has not touched anything. -/
theorem replaceTraced_refused {e : TranslationError}
    (h : t.replaceTarget va oldPa newPa = .error e) :
    (replaceTraced va oldPa newPa first second).run ⟨t, []⟩ = .error e ⟨t, []⟩ := by
  unfold replaceTraced
  rw [EStateM.run_bind, EStateM.run_get]
  dsimp only
  rw [EStateM.run_bind, h]
  rfl

/-! ## Leaves can be read back -/

/-- All leaves are words of `leaf_descriptor`. -/
def LeafWords (t : TableSet n) : Prop :=
  ∀ p table i w, t.reach p = some table → decode t.basePa p.length (t.storage table i) = .leaf w →
    LeafWord (p.length + 1) w

theorem new_leafWords {storage : Arena} {basePa paBits : Nat}
    (hnew : new storage basePa paBits = .ok t) : t.LeafWords := by
  intro p table i w hp hleaf
  obtain ⟨rfl, rfl⟩ := new_reach hnew hp
  obtain ⟨rfl, -⟩ := new_ok hnew
  cases hleaf

theorem LeafWords.grows {t t' : TableSet n} (h : t.LeafWords) (hgrows : Grows t t') :
    t'.LeafWords := by
  intro p table i w hp hleaf
  rcases hgrows.leaves hp i w hleaf with ⟨hold, heq⟩ | hword
  · refine h p table i w hold ?_
    rw [heq, ← hgrows.basePa]
    exact hleaf
  · exact hword

/-- A store in a level-3 table keeps it, if it stores nothing or a word of `leaf_descriptor`. -/
theorem LeafWords.setEntry3 (h : t.LeafWords) (hwf : t.Wf) {va table word : Nat}
    (hp : t.reach (route 2 va) = some table) (hword : word = 0 ∨ LeafWord 3 word) :
    (t.setEntry table (indexFor 3 va) word).LeafWords := by
  intro q other i w hq hleaf
  rw [hwf.reach_setEntry3 hp] at hq
  by_cases hi : other = table ∧ i = indexFor 3 va
  · obtain ⟨rfl, rfl⟩ := hi
    have hstored : (t.setEntry other (indexFor 3 va) word).storage other (indexFor 3 va) = word :=
      Radix.set_same
    rw [hstored] at hleaf
    rcases hword with rfl | ⟨pa, mapping, halign, hpa, rfl⟩
    · rw [decode_zero] at hleaf
      cases hleaf
    · rw [hwf.tree.inj hq hp, length_route] at hleaf ⊢
      have hdec := @decode_leaf pa 3 t.basePa mapping (.inr (.inr rfl)) halign hpa
      cases hdec.symm.trans hleaf
      exact ⟨pa, mapping, halign, hpa, rfl⟩
  · refine h q other i w hq ?_
    rw [← hleaf]
    congr 1
    exact (Radix.set_other hi).symm

/-- The page of an address, as a walk reports a data page. -/
def dataTranslation (pa : Nat) : Translation where
  pa := pa
  memoryType := .normal
  writable := true
  executable := false
  level := 3

/-- The address is a data page at `pa` exactly if its entry holds the descriptor of one. -/
theorem view_eq_dataTranslation (h : t.LeafWords) {va pa : Nat} (hva : va < 2 ^ 39)
    (hvaAlign : va % 4096 = 0) (hpaAlign : pa % 4096 = 0) (hpa : pa < 2 ^ 48) :
    t.view va = some (dataTranslation pa) ↔
      ∃ table, t.reach (route 2 va) = some table ∧
        t.storage table (indexFor 3 va) = leafDescriptor 3 pa (dataPage va pa) := by
  have hl : IsLevel 3 := .inr (.inr rfl)
  constructor
  · intro hview
    obtain ⟨⟨d, w⟩, hfind, htr⟩ := Option.map_eq_some_iff.mp hview
    have hd : d = 2 := by
      have hlevel : d + 1 = 3 := congrArg Translation.level htr
      omega
    subst hd
    obtain ⟨p, i, rest, table, hroute, hlen, hp, hleaf⟩ := Radix.lookup_eq_some.mp hfind
    -- The route has three steps, so the leaf is in the table of the first two.
    have hsplit : p = route 2 va ∧ i = indexFor 3 va := by
      rw [show route 3 va = route 2 va ++ [indexFor 3 va] from route_succ 2 va] at hroute
      obtain ⟨hpath, htail⟩ := List.append_inj hroute (by rw [length_route, hlen])
      exact ⟨hpath.symm, (List.cons.inj htail).1.symm⟩
    obtain ⟨rfl, rfl⟩ := hsplit
    refine ⟨table, hp, ?_⟩
    have hword : t.storage table (indexFor 3 va) = w := by
      unfold decode at hleaf
      split_ifs at hleaf
      exact Radix.Entry.leaf.inj hleaf
    obtain ⟨pa', mapping, halign', hpa', rfl⟩ := h (route 2 va) table (indexFor 3 va) w hp
      (by rw [length_route]; exact hleaf)
    rw [length_route] at halign' htr hword
    obtain ⟨hpaEq, htype, hwrite, hexec⟩ := requested_leaf
      { mapping with va := va, pa := pa' } hl hvaAlign halign' hpa' le_rfl rfl rfl
    have htr' : translationOf 3 (leafDescriptor 3 pa' mapping) va = dataTranslation pa := htr
    have hsame : leafDescriptor 3 pa' { mapping with va := va, pa := pa' } =
      leafDescriptor 3 pa' mapping := rfl
    rw [hsame, htr'] at hpaEq htype hwrite hexec
    rw [hword]
    have hpaEq' : pa = pa' := by
      have : pa = pa' + (va - va) := hpaEq
      omega
    subst hpaEq'
    obtain ⟨_, _, _, memoryType, writable, executable⟩ := mapping
    cases htype
    cases hwrite
    cases hexec
    rfl
  · rintro ⟨table, hp, hentry⟩
    have hdec : decode t.basePa (3 - 1) (t.storage table (indexFor 3 va)) =
        .leaf (leafDescriptor 3 pa (dataPage va pa)) := by
      rw [hentry]
      exact decode_leaf hl hpaAlign hpa
    rw [view_through hl hva hva rfl hp (level3_ne_table _ _), hdec]
    obtain ⟨hpaEq, htype, hwrite, hexec⟩ := requested_leaf (dataPage va pa) hl hvaAlign hpaAlign
      hpa le_rfl rfl rfl
    have hpaEq' : (translationOf 3 (leafDescriptor 3 pa (dataPage va pa)) va).pa = pa := by
      rw [hpaEq]
      show pa + (va - va) = pa
      omega
    rw [Option.some.injEq]
    generalize hgen : translationOf 3 (leafDescriptor 3 pa (dataPage va pa)) va = tr at *
    have hlevel : tr.level = 3 := by
      rw [← hgen]
      rfl
    obtain ⟨trPa, trType, trWrite, trExec, trLevel⟩ := tr
    cases hpaEq'
    cases htype
    cases hwrite
    cases hexec
    cases hlevel
    rfl

/-! ## When a page is replaced -/

/-- Sums that stay inside the ranges do not overflow, so validation comes down to the ranges. -/
theorem validateMapping_dataPage (h : t.Wf) {va pa : Nat} :
    t.validateMapping (dataPage va pa) = .ok () ↔
      va % 4096 = 0 ∧ pa % 4096 = 0 ∧ va + 4096 ≤ 2 ^ 39 ∧ pa + 4096 ≤ 2 ^ t.paBits := by
  constructor
  · intro hval
    obtain ⟨-, hva, hpa, -, h39, hbits⟩ := validateMapping_ok hval
    exact ⟨hva, hpa, h39, hbits⟩
  · rintro ⟨hva, hpa, h39, hbits⟩
    have hpow : 2 ^ t.paBits ≤ 2 ^ 48 := Nat.pow_le_pow_right (by decide) h.pa_bits
    have hbound : wordBound = 2 ^ 64 := rfl
    have haligned : isPageAligned (va ||| pa ||| 4096) = true := by
      apply isPageAligned_iff.mpr
      have hmod : (va ||| pa ||| 4096) % 2 ^ 12 = 0 := by
        rw [lor_mod_eq_zero, lor_mod_eq_zero]
        exact ⟨⟨hva, hpa⟩, by decide⟩
      exact hmod
    have hvaEnd : checkedAdd va 4096 = some (va + 4096) := checkedAdd_of_lt (by omega)
    have hpaEnd : checkedAdd pa 4096 = some (pa + 4096) := checkedAdd_of_lt (by omega)
    have h39' : ¬ va + 4096 > 1 <<< vaBits := not_lt.mpr h39
    have hbits' : ¬ pa + 4096 > 1 <<< t.paBits := by
      rw [Nat.shiftLeft_eq, Nat.one_mul]
      exact not_lt.mpr hbits
    unfold validateMapping
    simp only [dataPage, pageSize, haligned, hvaEnd, hpaEnd, h39', hbits', Bool.not_true,
      Bool.false_eq_true, if_false]
    rfl

/-- The address is a data page at the old address, the new one is another, and all three are pages
inside their ranges. -/
structure Replaceable (t : TableSet n) (va oldPa newPa : Nat) : Prop where
  va_aligned : va % 4096 = 0
  old_aligned : oldPa % 4096 = 0
  new_aligned : newPa % 4096 = 0
  va_end : va + 4096 ≤ 2 ^ 39
  old_end : oldPa + 4096 ≤ 2 ^ t.paBits
  new_end : newPa + 4096 ≤ 2 ^ t.paBits
  differ : oldPa ≠ newPa
  translated : t.walk va = .ok (some (dataTranslation oldPa))

/-- The checks accept exactly the replaceable pages, and find the level-3 entry of the address. -/
theorem replaceTarget_iff (h : t.Wf) (hleaf : t.LeafWords) {table : Nat}
    {index : Fin 512} :
    t.replaceTarget va oldPa newPa = .ok (table, index) ↔
      Replaceable t va oldPa newPa ∧ t.reach (route 2 va) = some table ∧ index = indexFor 3 va := by
  have hpow : 2 ^ t.paBits ≤ 2 ^ 48 := Nat.pow_le_pow_right (by decide) h.pa_bits
  have htable : t.existingTable va [1, 2] 0 = .ok table ↔ t.reach (route 2 va) = some table :=
    existingTable_iff h 2 0 0 le_rfl rfl
  rw [replaceTarget_eq_ok, validateMapping_dataPage h, validateMapping_dataPage h, htable,
    isPageAligned_iff]
  constructor
  · rintro ⟨⟨hva, hnew, h39, hnewEnd⟩, ⟨-, hold, -, holdEnd⟩, -, hne, hp, hentry, rfl⟩
    refine ⟨⟨hva, hold, hnew, h39, holdEnd, hnewEnd, hne, ?_⟩, hp, rfl⟩
    rw [walk_eq h (by omega), Except.ok.injEq,
      view_eq_dataTranslation hleaf (by omega) hva hold (by omega)]
    exact ⟨table, hp, hentry⟩
  · rintro ⟨⟨hva, hold, hnew, h39, holdEnd, hnewEnd, hne, hwalk⟩, hp, rfl⟩
    rw [walk_eq h (by omega), Except.ok.injEq,
      view_eq_dataTranslation hleaf (by omega) hva hold (by omega)] at hwalk
    obtain ⟨other, hother, hentry⟩ := hwalk
    cases hp.symm.trans hother
    exact ⟨⟨hva, hnew, h39, hnewEnd⟩, ⟨hva, hold, h39, holdEnd⟩, hold, hne, hp, hentry, rfl⟩

/-! ## Runs -/

/-- A call that may change the tables. -/
inductive Change where
  | map (mapping : Mapping)
  | replace (va oldPa newPa : Nat) (first second : Except TranslationError Unit)

/-- The tables after a call, whatever it returned. -/
def Change.run (t : TableSet n) : Change → TableSet n
  | .map mapping => Fallible.state ((TableSet.map mapping).run t)
  | .replace va oldPa newPa first second => (t.replaceDataPage va oldPa newPa first second).2.1

def runChanges (t : TableSet n) (changes : List Change) : TableSet n := changes.foldl Change.run t

/-- A replacement leaves a tree of leaf words. -/
theorem replaceDataPage_keeps (h : t.Wf) (hleaf : t.LeafWords) :
    (t.replaceDataPage va oldPa newPa first second).2.1.Wf ∧
      (t.replaceDataPage va oldPa newPa first second).2.1.LeafWords := by
  unfold replaceDataPage
  rcases htarget : t.replaceTarget va oldPa newPa with e | ⟨table, index⟩
  · exact ⟨h, hleaf⟩
  · have ht := replaceTarget_ok h htarget
    have hindex := ht.index_eq
    subst hindex
    have hbroken := hleaf.setEntry3 h ht.reached (Or.inl rfl)
    rcases first with e | _
    · exact ⟨(ht.broken h).wf, hbroken⟩
    · have hp' := (h.reach_setEntry3 ht.reached 0 (route 2 va)).trans ht.reached
      exact ⟨(ht.made h).wf, hbroken.setEntry3 (ht.broken h).wf hp'
        (Or.inr ⟨newPa, dataPage va newPa, ht.new_aligned, ht.new_lt, rfl⟩)⟩

theorem runChanges_keeps (h : t.Wf) (hleaf : t.LeafWords) (changes : List Change) :
    (t.runChanges changes).Wf ∧ (t.runChanges changes).LeafWords := by
  refine foldl_invariant Change.run (fun t => t.Wf ∧ t.LeafWords) ?_ changes ⟨h, hleaf⟩
  rintro t change ⟨h, hleaf⟩
  cases change with
  | map mapping =>
    show (Fallible.state ((map mapping).run t)).Wf ∧ _
    rcases map_spec h mapping with ⟨t', hrun, hprogress, -⟩ | ⟨e, t', hrun, hprogress⟩
    all_goals
      rw [Change.run, hrun]
      exact ⟨hprogress.wf, hleaf.grows hprogress.grows⟩
  | replace va oldPa newPa first second => exact replaceDataPage_keeps h hleaf

/-! ## Break before make -/

/-- The second form: clear, synchronize, and only then write the new leaf and synchronize again. -/
def breakThenMake (t : TableSet n) (table : Nat) (index : Fin 512) (word : Nat)
    (first second : Except TranslationError Unit) :
    EStateM.Result TranslationError (Traced n) Unit :=
  match first with
  | .error e =>
      .error e ⟨t.setEntry table index 0, [.store table index 0, .synchronize table index]⟩
  | .ok _ =>
      let made : Traced n :=
        ⟨(t.setEntry table index 0).setEntry table index word,
          [.store table index 0, .synchronize table index,
            .store table index word, .synchronize table index]⟩
      match second with
      | .error e => .error e made
      | .ok _ => .ok () made

theorem replaceTraced_accepted {table : Nat} {index : Fin 512}
    (h : t.replaceTarget va oldPa newPa = .ok (table, index)) :
    (replaceTraced va oldPa newPa first second).run ⟨t, []⟩ =
      breakThenMake t table index (leafDescriptor 3 newPa (dataPage va newPa)) first second := by
  unfold replaceTraced breakThenMake
  rw [EStateM.run_bind, EStateM.run_get]
  dsimp only
  rw [EStateM.run_bind, h]
  rcases first with e | _
  · rfl
  · rcases second with e | _
    · rfl
    · rfl

/-- Only the page of the address can translate differently. -/
theorem replaceTraced_frame (h : t.Wf) {va' : Nat} (hout : ¬ va' / 4096 = va / 4096) :
    (Fallible.state ((replaceTraced va oldPa newPa first second).run ⟨t, []⟩)).tables.walk va' =
      t.walk va' := by
  rw [(replaceTraced_tables ..).2]
  rcases replaceDataPage_states h va oldPa newPa first second _ List.mem_cons_self with
    heq | hrewritten
  · rw [heq]
  · by_cases hva' : va' < 2 ^ 39
    · rw [walk_eq hrewritten.wf hva', walk_eq h hva', hrewritten.outside va' hva' hout]
    · rw [walk_of_le (not_lt.mp hva'), walk_of_le (not_lt.mp hva')]

/-- Break before make, in all tables that maps and replacements can lead to. A page that is not
replaceable is refused without a store or a callback. For one that is, exactly the entry of its
address is cleared and, if the first callback succeeds, written, with a callback after each store.
The result is `Ok` if both callbacks succeed, and no other page translates differently. -/
theorem replace_breakBeforeMake {storage : Arena} {basePa paBits : Nat} {t₀ : TableSet n}
    (hnew : new storage basePa paBits = .ok t₀) (changes : List Change) (va oldPa newPa : Nat)
    (first second : Except TranslationError Unit) :
    let t := t₀.runChanges changes
    let result := (replaceTraced va oldPa newPa first second).run ⟨t, []⟩
    (¬ Replaceable t va oldPa newPa → ∃ e, result = .error e ⟨t, []⟩) ∧
    (Replaceable t va oldPa newPa → ∃ table, t.reach (route 2 va) = some table ∧
      result = breakThenMake t table (indexFor 3 va) (leafDescriptor 3 newPa (dataPage va newPa))
        first second) ∧
    (isOk result = true ↔
      Replaceable t va oldPa newPa ∧ first = .ok () ∧ second = .ok ()) ∧
    ∀ va', ¬ va' / 4096 = va / 4096 → (Fallible.state result).tables.walk va' = t.walk va' := by
  intro t result
  obtain ⟨h, hleaf⟩ := runChanges_keeps (new_wf hnew) (new_leafWords hnew) changes
  have hrefused : ¬ Replaceable t va oldPa newPa → ∃ e, result = .error e ⟨t, []⟩ := by
    intro hnot
    rcases htarget : t.replaceTarget va oldPa newPa with e | ⟨table, index⟩
    · exact ⟨e, replaceTraced_refused htarget⟩
    · exact absurd ((replaceTarget_iff h hleaf).mp htarget).1 hnot
  have haccepted : Replaceable t va oldPa newPa → ∃ table, t.reach (route 2 va) = some table ∧
      result = breakThenMake t table (indexFor 3 va) (leafDescriptor 3 newPa (dataPage va newPa))
        first second := by
    intro hpage
    have hwalk := hpage.translated
    have hpow : 2 ^ t.paBits ≤ 2 ^ 48 := Nat.pow_le_pow_right (by decide) h.pa_bits
    have hva := hpage.va_end
    have hold := hpage.old_end
    rw [walk_eq h (by omega), Except.ok.injEq, view_eq_dataTranslation hleaf (by omega)
      hpage.va_aligned hpage.old_aligned (by omega)] at hwalk
    obtain ⟨table, hp, -⟩ := hwalk
    exact ⟨table, hp, replaceTraced_accepted ((replaceTarget_iff h hleaf).mpr ⟨hpage, hp, rfl⟩)⟩
  refine ⟨hrefused, haccepted, ?_, fun _ hout => replaceTraced_frame h hout⟩
  by_cases hpage : Replaceable t va oldPa newPa
  · obtain ⟨table, -, hresult⟩ := haccepted hpage
    rw [hresult]
    rcases first with e | ⟨⟩
    · simp [breakThenMake, isOk]
    · rcases second with e | ⟨⟩
      · simp [breakThenMake, isOk]
      · simp [breakThenMake, isOk, hpage]
  · obtain ⟨e, hresult⟩ := hrefused hpage
    rw [hresult]
    simp [isOk, hpage]

/-- The one page of a small image is mapped and then moved. -/
theorem replace_breakBeforeMake_movedPage :
    ∃ t₀ : TableSet 3, new (fun _ _ => 0x7ff) 0x30000000 44 = .ok t₀ ∧
      let t := t₀.runChanges [.map (dataPage 0x40001000 0x80001000)]
      Replaceable t 0x40001000 0x80001000 0x80002000 ∧
      isOk ((replaceTraced 0x40001000 0x80001000 0x80002000 (.ok ()) (.ok ())).run ⟨t, []⟩) =
        true := by
  have hnew : new (fun _ _ => 0x7ff) 0x30000000 44 =
      .ok (withPage (n := 3) ⟨fun _ _ => 0x7ff, 0, 0x30000000, 44⟩) := rfl
  refine ⟨_, hnew, ?_⟩
  intro t
  have hpage : Replaceable t 0x40001000 0x80001000 0x80002000 :=
    ⟨by decide, by decide, by decide, by decide, by decide +kernel, by decide +kernel, by decide,
      by decide +kernel⟩
  have hall := replace_breakBeforeMake hnew [.map (dataPage 0x40001000 0x80001000)] 0x40001000
    0x80001000 0x80002000 (.ok ()) (.ok ())
  exact ⟨hpage, hall.2.2.1.mpr ⟨hpage, rfl, rfl⟩⟩

end TableSet

end Tvisor.El2Stage1
