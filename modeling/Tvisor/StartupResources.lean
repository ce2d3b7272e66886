/-
# Tvisor.StartupResources -- the boot-owned tables and their freeze

`BootTables` is a gate in front of the EL2 tables. Until `validate_and_freeze` succeeds, `edit`
gives them out for mapping; after that `edit` fails for ever and one narrow exception is left,
`replace_scratch_page`, which may move the data page at `SCRATCH_VA` by break-before-make.

The exception stores raw descriptors after the freeze. What it can change is one level-3 entry, so
`Kept`, which compares the tables of any later moment with the frozen ones, is kept by every call,
and at each `synchronize` callback inside a call as well.
-/
import Tvisor.El2Stage1.Replace
import Tvisor.Pcpu
import Tvisor.SystemInfo

namespace Tvisor.StartupResources

open El2Stage1 Fallible

/-- `tlb_update::SCRATCH_VA`. -/
def scratchVa : Nat := 0x1_0000_0000

inductive ResourceError
  | frozen
  | layout
  | ownership
  | mapping
  | root
  deriving DecidableEq, Repr

/-- `StartupResources`: what one CPU is started with. -/
structure Resources where
  code : SystemInfo.PhysRegion
  vectors : SystemInfo.PhysRegion
  rodata : SystemInfo.PhysRegion
  writable : SystemInfo.PhysRegion
  tables : SystemInfo.PhysRegion
  slots : SystemInfo.PhysRegion
  config : SystemInfo.PhysRegion
  context : SystemInfo.PhysRegion
  releasePage : SystemInfo.PhysRegion
  stack : Pcpu.StackLayout
  entry : Nat
  root : Nat
  deriving DecidableEq, Repr

/-- The tables under the boot table lock. -/
structure BootTables (n : Nat) where
  tables : TableSet n
  frozen : Bool

namespace BootTables

variable {n : Nat}

def new (tables : TableSet n) : BootTables n := ⟨tables, false⟩

/-- The editable tables, if they are still to be had. -/
def edit (b : BootTables n) : Except ResourceError (TableSet n) :=
  if b.frozen then .error .frozen else .ok b.tables

/-- A client of `edit`: it takes the handle and maps through it. -/
def editMap (mapping : Mapping) :
    EStateM ResourceError (BootTables n) (Except TranslationError Unit) := do
  let b ← get
  let tables ← lift b.edit
  match (TableSet.map mapping).run tables with
  | .ok () tables' =>
      set { b with tables := tables' }
      pure (.ok ())
  | .error e tables' =>
      set { b with tables := tables' }
      pure (.error e)

def validateAndFreeze (validate : TableSet n → Except ResourceError Unit) :
    EStateM ResourceError (BootTables n) Unit := do
  let b ← get
  (if b.frozen then throw .frozen else pure ())
  lift (validate b.tables)
  set { b with frozen := true }

/-- `replace_scratch_page` with the answers of the two callbacks: its result, the tables it leaves,
and the tables at each callback. -/
def replaceScratchPage (b : BootTables n) (old new : Nat)
    (first second : Except TranslationError Unit) :
    Except ResourceError Unit × BootTables n × List (BootTables n) :=
  if b.frozen then
    let (result, tables, seen) := b.tables.replaceDataPage scratchVa old new first second
    (result.mapError fun _ => .mapping, { b with tables }, seen.map fun t => { b with tables := t })
  else (.error .frozen, b, [])

/-! ## Runs -/

/-- The calls on the gate, with every choice their callers make. -/
inductive Op (n : Nat)
  | edit (mapping : Mapping)
  | freeze (validate : TableSet n → Except ResourceError Unit)
  | replace (old new : Nat) (first second : Except TranslationError Unit)

/-- The state a call leaves, and the states at the callbacks it makes. -/
def step (b : BootTables n) : Op n → BootTables n × List (BootTables n)
  | .edit mapping => (Fallible.state ((editMap mapping).run b), [])
  | .freeze validate => (Fallible.state ((validateAndFreeze validate).run b), [])
  | .replace old new first second => (b.replaceScratchPage old new first second).2

def run (b : BootTables n) (ops : List (Op n)) : BootTables n :=
  ops.foldl (fun b op => (b.step op).1) b

/-- Every state of a run: before and after each call, and at each callback. -/
def states (b : BootTables n) : List (Op n) → List (BootTables n)
  | [] => [b]
  | op :: ops => b :: ((b.step op).2 ++ states (b.step op).1 ops)

/-! ## What the calls do -/

theorem editMap_state (b : BootTables n) (mapping : Mapping) :
    Fallible.state ((editMap mapping).run b) = if b.frozen then b else
      { b with tables := Fallible.state ((TableSet.map mapping).run b.tables) } := by
  rcases b with ⟨tables, _ | _⟩
  · unfold editMap edit
    simp only [EStateM.run_bind, EStateM.run_get, Bool.false_eq_true, if_false, run_lift_ok]
    rcases (TableSet.map mapping).run tables with ⟨u, t⟩ | ⟨e, t⟩
    · rfl
    · rfl
  · rfl

theorem validateAndFreeze_cases (validate : TableSet n → Except ResourceError Unit)
    (b : BootTables n) :
    (∃ e, (validateAndFreeze validate).run b = .error e b) ∨
      (b.frozen = false ∧
        (validateAndFreeze validate).run b = .ok () { b with frozen := true }) := by
  unfold validateAndFreeze
  simp only [EStateM.run_bind, EStateM.run_get]
  rcases hf : b.frozen with _ | _
  · rcases hval : validate b.tables with e | u
    · exact .inl ⟨e, rfl⟩
    · exact .inr ⟨rfl, rfl⟩
  · exact .inl ⟨_, rfl⟩

theorem replaceScratchPage_states {b : BootTables n} (h : b.tables.Wf) (old new : Nat)
    (first second : Except TranslationError Unit) :
    ∀ s ∈ (b.replaceScratchPage old new first second).2.1 ::
      (b.replaceScratchPage old new first second).2.2,
      s.frozen = b.frozen ∧
        (s.tables = b.tables ∨ b.frozen = true ∧
          TableSet.Rewritten scratchVa b.tables s.tables) := by
  intro s hs
  unfold replaceScratchPage at hs
  by_cases hf : b.frozen
  · rw [if_pos hf, List.mem_cons, List.mem_map] at hs
    have hstates := TableSet.replaceDataPage_states h scratchVa old new first second
    obtain ⟨t, ht, rfl⟩ : ∃ t ∈ (b.tables.replaceDataPage scratchVa old new first second).2.1 ::
        (b.tables.replaceDataPage scratchVa old new first second).2.2,
        s = { b with tables := t } := by
      rcases hs with rfl | ⟨t, ht, rfl⟩
      · exact ⟨_, List.mem_cons_self, rfl⟩
      · exact ⟨t, List.mem_cons_of_mem _ ht, rfl⟩
    exact ⟨rfl, (hstates t ht).imp id fun hr => ⟨hf, hr⟩⟩
  · rw [if_neg hf] at hs
    have hs : s = b := List.mem_singleton.mp hs
    rw [hs]
    exact ⟨rfl, .inl rfl⟩

/-- The tables stay well formed, at the callbacks too. -/
theorem step_wf {b : BootTables n} (h : b.tables.Wf) (op : Op n) :
    ∀ s ∈ (b.step op).1 :: (b.step op).2, s.tables.Wf := by
  intro s hs
  rcases op with mapping | validate | ⟨old, new, first, second⟩
  · have hs : s = Fallible.state ((editMap mapping).run b) := List.mem_singleton.mp hs
    rw [hs, editMap_state]
    by_cases hf : b.frozen
    · rw [if_pos hf]
      exact h
    · rw [if_neg hf]
      exact h.runMaps [mapping]
  · have hs : s = Fallible.state ((validateAndFreeze validate).run b) := List.mem_singleton.mp hs
    rcases validateAndFreeze_cases validate b with ⟨e, hrun⟩ | ⟨-, hrun⟩
    · rw [hs, hrun]
      exact h
    · rw [hs, hrun]
      exact h
  · rcases (replaceScratchPage_states h old new first second s hs).2 with heq | ⟨-, hr⟩
    · rw [heq]
      exact h
    · exact hr.wf

theorem run_wf {b : BootTables n} (h : b.tables.Wf) (ops : List (Op n)) : (b.run ops).tables.Wf :=
  foldl_invariant _ (fun b : BootTables n => b.tables.Wf)
    (fun _ op h => step_wf h op _ List.mem_cons_self) ops h

/-! ## After the freeze -/

def InScratch (va : Nat) : Prop := va / 4096 = scratchVa / 4096

/-- A frozen state against a later one. -/
structure Kept (f s : BootTables n) : Prop where
  wf : s.tables.Wf
  frozen : s.frozen = true
  used_eq : s.tables.used = f.tables.used
  outside : ∀ va, va < 2 ^ 39 → ¬ InScratch va → s.tables.view va = f.tables.view va
  scratch : ∀ va, va < 2 ^ 39 → InScratch va → s.tables.view va = f.tables.view va ∨
    IsDataPage (f.tables.view va) ∧ (s.tables.view va = none ∨ IsDataPage (s.tables.view va))

theorem Kept.refl {f : BootTables n} (h : f.tables.Wf) (hf : f.frozen = true) : Kept f f :=
  ⟨h, hf, rfl, fun _ _ _ => rfl, fun _ _ _ => .inl rfl⟩

theorem Kept.rewritten {f s s' : BootTables n} (h : Kept f s) (hf : s'.frozen = true)
    (hr : TableSet.Rewritten scratchVa s.tables s'.tables) : Kept f s' where
  wf := hr.wf
  frozen := hf
  used_eq := hr.used_eq.trans h.used_eq
  outside := fun va hva hout => (hr.outside va hva hout).trans (h.outside va hva hout)
  scratch := by
    -- a rewrite starts from a data page, and the page never becomes one unless it was one at first
    intro va hva hin
    right
    refine ⟨?_, hr.after va hva hin⟩
    rcases h.scratch va hva hin with heq | ⟨hdata, -⟩
    · rw [← heq]
      exact hr.before va hva hin
    · exact hdata

theorem Kept.step {f s : BootTables n} (h : Kept f s) (op : Op n) :
    ∀ s' ∈ (s.step op).1 :: (s.step op).2, Kept f s' := by
  intro s' hs'
  rcases op with mapping | validate | ⟨old, new, first, second⟩
  · have hs' : s' = Fallible.state ((editMap mapping).run s) := List.mem_singleton.mp hs'
    rw [hs', editMap_state, if_pos h.frozen]
    exact h
  · have hs' : s' = Fallible.state ((validateAndFreeze validate).run s) :=
      List.mem_singleton.mp hs'
    rcases validateAndFreeze_cases validate s with ⟨e, hrun⟩ | ⟨hthawed, -⟩
    · rw [hs', hrun]
      exact h
    · rw [h.frozen] at hthawed
      cases hthawed
  · obtain ⟨hfrozen, heq | ⟨-, hr⟩⟩ := replaceScratchPage_states h.wf old new first second s' hs'
    · have hs' : s' = s := by
        rcases s' with ⟨t', f'⟩
        rcases s with ⟨t, f⟩
        cases heq
        cases hfrozen
        rfl
      rw [hs']
      exact h
    · exact h.rewritten (hfrozen.trans h.frozen) hr

theorem Kept.states {f s : BootTables n} (h : Kept f s) (ops : List (Op n)) :
    ∀ s' ∈ s.states ops, Kept f s' := by
  induction ops generalizing s with
  | nil =>
    intro s' hs'
    rw [List.mem_singleton.mp hs']
    exact h
  | cons op ops ih =>
    intro s' hs'
    rcases List.mem_cons.mp hs' with rfl | hs'
    · exact h
    · rcases List.mem_append.mp hs' with hseen | hlater
      · exact h.step op s' (List.mem_cons_of_mem _ hseen)
      · exact ih (h.step op _ List.mem_cons_self) s' hlater

/-- A walk of the address finds Normal, writable and non-executable memory. -/
def DataAt (t : TableSet n) (va : Nat) : Prop :=
  ∃ tr, t.walk va = .ok (some tr) ∧ tr.memoryType = .normal ∧ tr.writable = true ∧
    tr.executable = false

theorem dataAt_iff {t : TableSet n} (h : t.Wf) {va : Nat} (hva : va < 2 ^ 39) :
    DataAt t va ↔ IsDataPage (t.view va) := by
  unfold DataAt IsDataPage
  rw [TableSet.walk_eq h hva]
  simp only [Except.ok.injEq]

theorem InScratch.lt {va : Nat} (h : InScratch va) : va < 2 ^ 39 := by
  unfold InScratch scratchVa at h
  omega

theorem Kept.walk_outside {f s : BootTables n} (h : Kept f s) (hf : f.tables.Wf) {va : Nat}
    (hout : ¬ InScratch va) : s.tables.walk va = f.tables.walk va := by
  by_cases hva : va < 2 ^ 39
  · rw [TableSet.walk_eq h.wf hva, TableSet.walk_eq hf hva, h.outside va hva hout]
  · rw [TableSet.walk_of_le (not_lt.mp hva), TableSet.walk_of_le (not_lt.mp hva)]

theorem Kept.walk_scratch {f s : BootTables n} (h : Kept f s) (hf : f.tables.Wf) {va : Nat}
    (hin : InScratch va) :
    (DataAt f.tables va → s.tables.walk va = .ok none ∨ DataAt s.tables va) ∧
      (¬ DataAt f.tables va → s.tables.walk va = f.tables.walk va) := by
  have hva := hin.lt
  rw [dataAt_iff hf hva, dataAt_iff h.wf hva, TableSet.walk_eq h.wf hva, TableSet.walk_eq hf hva,
    Except.ok.injEq, Except.ok.injEq]
  rcases h.scratch va hva hin with heq | ⟨hdata, hnow⟩
  · rw [heq]
    exact ⟨.inr, fun _ => rfl⟩
  · exact ⟨fun _ => hnow, fun hnot => absurd hdata hnot⟩

/-- Frozen host mappings. A failed `validate_and_freeze` changes nothing and leaves the tables
editable. After a successful one, in every later state, those at the callbacks included, nothing
outside the scratch page has moved, and the scratch page is unmapped or a data page if it was one,
and untouched if it was not. -/
theorem frozen_mappings {storage : Arena} {basePa paBits : Nat} {tables : TableSet n}
    (hnew : TableSet.new storage basePa paBits = .ok tables) (before : List (Op n))
    (validate : TableSet n → Except ResourceError Unit) :
    let b := (new tables).run before
    (∀ e b', b.frozen = false → (validateAndFreeze validate).run b = .error e b' →
      b' = b ∧ b'.edit = .ok b.tables) ∧
    ∀ f, (validateAndFreeze validate).run b = .ok () f → f.tables = b.tables ∧
      ∀ ops, ∀ s ∈ f.states ops,
        (∀ va, ¬ InScratch va → s.tables.walk va = f.tables.walk va) ∧
        s.tables.usedPages = f.tables.usedPages ∧
        s.edit = .error .frozen ∧
        ∀ va, InScratch va →
          (DataAt f.tables va → s.tables.walk va = .ok none ∨ DataAt s.tables va) ∧
          (¬ DataAt f.tables va → s.tables.walk va = f.tables.walk va) := by
  intro b
  refine ⟨?_, ?_⟩
  · intro e b' hopen hrun
    rcases validateAndFreeze_cases validate b with ⟨e', hrun'⟩ | ⟨-, hrun'⟩
    · rw [hrun'] at hrun
      obtain ⟨-, rfl⟩ := EStateM.Result.error.inj hrun
      exact ⟨rfl, if_neg (by rw [hopen]; exact Bool.false_ne_true)⟩
    · rw [hrun'] at hrun
      cases hrun
  · intro f hrun
    have hwf : b.tables.Wf := run_wf (b := new tables) (TableSet.new_wf hnew) before
    rcases validateAndFreeze_cases validate b with ⟨e', hrun'⟩ | ⟨-, hrun'⟩
    · rw [hrun'] at hrun
      cases hrun
    · rw [hrun'] at hrun
      obtain ⟨-, rfl⟩ := EStateM.Result.ok.inj hrun
      refine ⟨rfl, ?_⟩
      intro ops s hs
      have hkept := (Kept.refl (f := { b with frozen := true }) hwf rfl).states ops s hs
      exact ⟨fun va => hkept.walk_outside hwf, hkept.used_eq, if_pos hkept.frozen,
        fun va => hkept.walk_scratch hwf⟩

/-- Three table pages with the scratch page mapped as data. -/
def scratchBoot : BootTables 3 :=
  (new (TableSet.withPage ⟨fun _ _ => 0x7ff, 0, 0x30000000, 44⟩)).run
    [.edit ⟨scratchVa, 0x80001000, 0x1000, .normal, true, false⟩]

theorem frozen_mappings_scratchBoot :
    DataAt scratchBoot.tables scratchVa ∧
      ∀ ops, ∀ s ∈ ({ scratchBoot with frozen := true } : BootTables 3).states ops,
        s.tables.walk scratchVa = .ok none ∨ DataAt s.tables scratchVa := by
  have hnew : TableSet.new (fun _ _ => 0x7ff) 0x30000000 44 =
      .ok (TableSet.withPage (n := 3) ⟨fun _ _ => 0x7ff, 0, 0x30000000, 44⟩) := rfl
  have hdata : DataAt scratchBoot.tables scratchVa :=
    ⟨⟨0x80001000, .normal, true, false, 3⟩, by decide +kernel, rfl, rfl, rfl⟩
  refine ⟨hdata, ?_⟩
  intro ops s hs
  have hrun : (validateAndFreeze fun _ => .ok ()).run scratchBoot =
      .ok () { scratchBoot with frozen := true } := by
    rcases validateAndFreeze_cases (fun _ => .ok ()) scratchBoot with ⟨e, hrun⟩ | ⟨-, hrun⟩
    · cases hrun
    · exact hrun
  have hafter := ((frozen_mappings hnew
      [.edit ⟨scratchVa, 0x80001000, 0x1000, .normal, true, false⟩] fun _ => .ok ()).2 _ hrun).2
    ops s hs
  exact (hafter.2.2.2 scratchVa rfl).1 hdata

end BootTables

end Tvisor.StartupResources
