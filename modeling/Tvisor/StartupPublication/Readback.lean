/-
# Tvisor.StartupPublication.Readback -- what the release cells hold agrees with the mask

After each arrival the boot CPU reads all release cells back and compares them with the mask of
attempted releases: a cell whose CPU was released holds the entry address, every other cell is still
zero. `verify_release_value` is that comparison.

Here the releases run one after the other. The view of a release is the mask and the content of the
cells; the mailboxes may be read as anything, because the secondaries work on them. A release that
sets its bit and then fails is left out: whether the cell was written is not known then.
-/
import Mathlib.Logic.Function.Basic
import Mathlib.Logic.Relation
import Tvisor.CpuTopology.Order
import Tvisor.Lib.Views
import Tvisor.StartupPublication.Release

namespace Tvisor.StartupPublication

open Interleave Fallible Words CpuTopology SecondaryEntry

/-! ## The view -/

/-- The mask of attempted releases, and what each release cell holds. -/
structure Released where
  mask : Nat
  cells : Nat → Nat

/-- Reads return the last store, and a successful exchange has seen the mask. -/
def releaseAgrees : Act → Released → Prop
  | .load .attempted v, s => v = s.mask
  | .exchange .attempted expected _ true, s => s.mask = expected
  | .store .bus (some ⟨.read address, some v⟩), s => v = s.cells address
  | _, _ => True

def releaseApply : Act → Released → Released
  | .exchange .attempted _ new true, s => { s with mask := new }
  | .store .bus (some ⟨.store address v, some _⟩), s =>
      { s with cells := Function.update s.cells address v }
  | _, s => s

def releaseView : View Val Released := ⟨releaseAgrees, releaseApply⟩

/-- The arguments of one release. -/
structure Release where
  contract : EntryContract
  record : StartupView
  line : Nat
  fate : Fate

/-- One release, from state to state. If it has set its bit, it has not failed. -/
def ReleaseStep (cpus : List CpuDescriptor) (entry : Nat) (s s' : Released) : Prop :=
  ∃ (call : Release) (ops : List Act) (r : Except (Halt PublicationError) Nat),
    (releaseSecondary cpus call.contract call.record entry call.line call.fate).run.Ran ops r ∧
      releaseView.Follows s ops s' ∧ (s'.mask ≠ s.mask → ∃ timestamp, r = .ok timestamp)

/-! ## One release -/

theorem outside_of_ne {a : Act} (hmask : a.loc ≠ .attempted) (hbus : a.loc ≠ .bus) :
    releaseView.Outside a := by
  intro s
  cases a with
  | load l v => rfl
  | store l v | exchange l expected new success =>
    cases l with
    | bus => exact absurd rfl hbus
    | attempted => exact absurd rfl hmask
    | _ => rfl
  | swap l new old => rfl

theorem mailbox_outside {A : Type} (slot : Nat) (x : SecondaryMailbox.Attempt A) :
    (mailbox slot x).Only releaseView.Outside := by
  refine .embed ((Prog.Forall.any x.run).mono fun a _ => ?_)
  refine outside_of_ne ?_ ?_ <;> rw [Action.embed_loc] <;> exact Cell.noConfusion

variable {s : Released}

/-- Only a successful store changes a cell. -/
theorem perform_takes (op : HardwareOp) (outcome : Option Nat) :
    releaseView.Takes s (perform op outcome).run fun r s' =>
      s' = releaseApply (issued op outcome) s ∧ ∀ v, r = .ok v → outcome = some v := by
  refine View.Takes.run_bind_lift (P := fun _ s' => s' = releaseApply (issued op outcome) s)
    (.store fun _ => rfl) fun _ s' hs' => ?_
  rcases outcome with _ | v
  · exact .ret ⟨hs', nofun⟩
  · refine .ret ⟨hs', ?_⟩
    rintro _ ⟨⟩
    rfl

theorem load_takes (c : Cell) : releaseView.Takes s (load c) fun _ s' => s' = s :=
  .load fun _ _ => rfl

/-- `fetch_update` sets the bit that it found clear, or leaves the mask. -/
theorem setAttempted_takes (bit tries mask : Nat) :
    releaseView.Takes s (setAttempted bit tries mask).run fun r s' =>
      (∃ e, r = .error e ∧ s' = s) ∨
        (r = .ok () ∧ s.mask &&& bit = 0 ∧ s' = { s with mask := s.mask ||| bit }) := by
  induction tries generalizing mask with
  | zero => exact .ret (.inl ⟨_, rfl, rfl⟩)
  | succ tries ih =>
    unfold setAttempted
    split
    · exact .ret (.inl ⟨_, rfl, rfl⟩)
    rename_i hfree
    have hexchange : releaseView.Takes s (compareExchange .attempted mask (mask ||| bit))
        fun success s' => (success = false ∧ s' = s) ∨
          (success = true ∧ s.mask &&& bit = 0 ∧ s' = { s with mask := s.mask ||| bit }) := by
      refine .compareExchange fun success hagrees => ?_
      rcases success with _ | _
      · exact .inl ⟨rfl, rfl⟩
      · have hmask : s.mask = mask := hagrees
        subst hmask
        exact .inr ⟨rfl, not_not.mp hfree, rfl⟩
    refine .run_bind_lift hexchange fun success s' hs' => ?_
    rcases hs' with ⟨rfl, rfl⟩ | ⟨rfl, hclear, hset⟩
    · refine .run_bind_lift (load_takes .attempted) fun mask' s'' hs'' => ?_
      subst hs''
      exact ih mask'
    · exact .ret (.inr ⟨rfl, hclear, hset⟩)

/-- What one release of this CPU can do: nothing, or set the bit that was clear; and if it returns
then, the cell of the CPU holds the entry address. -/
def Effect (cpus : List CpuDescriptor) (id entry : Nat) (s : Released)
    (r : Except (Halt PublicationError) Nat) (s' : Released) : Prop :=
  s' = s ∨ ∃ cell, validateSpinTableTarget cpus id = .ok cell ∧ s.mask &&& 1 <<< id = 0 ∧
    s'.mask = s.mask ||| 1 <<< id ∧
    ∀ timestamp, r = .ok timestamp → s'.cells = Function.update s.cells cell entry

theorem releaseSecondary_takes (cpus : List CpuDescriptor) (contract : EntryContract)
    (record : StartupView) (entry line : Nat) (fate : Fate) :
    releaseView.Takes s (releaseSecondary cpus contract record entry line fate).run
      (Effect cpus record.identity.logicalId entry s) := by
  unfold releaseSecondary
  dsimp only
  rcases hcell : releaseCell cpus contract record entry line with e | cell
  · exact .ret (.inl rfl)
  have htarget := releaseCell_target hcell
  -- Up to the exchange of the mask nothing that the view shows is written.
  refine .run_bind (.outside (orElse_forall (mailbox_outside _ _))) (fun state s hs' => ?_)
    fun _ _ hs' => .inl hs'
  subst hs'
  split
  · exact .ret (.inl rfl)
  refine .run_bind_lift (load_takes .attempted) fun seen s hs' => ?_
  subst hs'
  split
  · exact .ret (.inl rfl)
  refine .run_bind (perform_takes _ _) (fun v s' hs' => ?_) fun _ _ hs' => .inl hs'.1
  obtain ⟨rfl, -⟩ := hs'
  split
  · exact .ret (.inl rfl)
  refine .run_bind (.outside (orElse_forall (mailbox_outside _ _))) (fun _ s hs' => ?_)
    fun _ _ hs' => .inl hs'
  subst hs'
  refine .run_bind (perform_takes _ _) (fun _ s' hs' => ?_) fun _ _ hs' => .inl hs'.1
  obtain ⟨rfl, -⟩ := hs'
  refine .run_bind (perform_takes _ _) (fun v s' hs' => ?_) fun _ _ hs' => .inl hs'.1
  obtain ⟨rfl, -⟩ := hs'
  split
  · exact .ret (.inl rfl)
  refine .run_bind_lift (load_takes .attempted) fun mask s hs' => ?_
  subst hs'
  refine .run_bind (setAttempted_takes _ _ _) (fun _ s' hs' => ?_) fun e s' hs' => ?_
  · obtain ⟨_, ⟨⟩, -⟩ | ⟨-, hclear, rfl⟩ := hs'
    -- The bit is set. From here on an error keeps the bit, and the store makes the cell the entry.
    have hfailed : ∀ {s' : Released} {e : Halt PublicationError},
        s'.mask = s.mask ||| 1 <<< record.identity.logicalId →
        Effect cpus record.identity.logicalId entry s (.error e) s' :=
      fun hmask => .inr ⟨cell, htarget, hclear, hmask, nofun⟩
    refine .run_bind (perform_takes _ _) (fun timestamp s' hs' => ?_) fun _ s' hs' => hfailed ?_
    · obtain ⟨rfl, hstored⟩ := hs'
      rw [hstored timestamp rfl]
      refine .run_bind (perform_takes _ _) (fun _ s' hs' => ?_) fun _ _ hs' => hfailed ?_
      · obtain ⟨rfl, -⟩ := hs'
        refine .run_bind (perform_takes _ _) (fun _ s' hs' => ?_) fun _ _ hs' => hfailed ?_
        · obtain ⟨rfl, -⟩ := hs'
          refine .run_bind (perform_takes _ _) (fun _ s' hs' => ?_) fun _ _ hs' => hfailed ?_
          · obtain ⟨rfl, -⟩ := hs'
            exact .ret (.inr ⟨cell, htarget, hclear, rfl, fun _ _ => rfl⟩)
          · rw [hs'.1]
            rfl
        · rw [hs'.1]
          rfl
      · rw [hs'.1]
        rfl
    · rw [hs'.1]
      rcases fate.io 3 with _ | v
      · rfl
      · rfl
  · obtain ⟨_, -, rfl⟩ | ⟨⟨⟩, -⟩ := hs'
    exact .inl rfl

/-! ## All releases -/

/-- A CPU with a bit in the mask is started through this cell. -/
def isReleased (cpus : List CpuDescriptor) (attempted cell : Nat) : Bool :=
  cpus.any fun cpu =>
    (match cpu.logicalId with
      | some id => attempted &&& 1 <<< id != 0
      | none => false) && cpu.startup == .spinTable cell

variable {cpus : List CpuDescriptor}

theorem isReleased_iff {attempted cell : Nat} : isReleased cpus attempted cell = true ↔
    ∃ cpu ∈ cpus, ∃ id, cpu.logicalId = some id ∧ attempted.testBit id = true ∧
      cpu.startup = .spinTable cell := by
  have hbit : ∀ id, (attempted &&& 1 <<< id != 0) = true ↔ attempted.testBit id = true := by
    intro id
    rw [bne_iff_ne, ne_eq, and_bit_eq_zero, Bool.not_eq_false]
  unfold isReleased
  rw [List.any_eq_true]
  refine exists_congr fun cpu => and_congr_right fun _ => ?_
  rw [Bool.and_eq_true, beq_iff_eq]
  rcases cpu.logicalId with _ | id
  · simp
  · simp only [hbit, Option.some.injEq, exists_eq_left']

/-- The mask is one of secondaries, and a cell holds the entry exactly if its CPU was released. -/
structure InStep (cpus : List CpuDescriptor) (entry : Nat) (s : Released) : Prop where
  ids : ∀ id, s.mask.testBit id = true → id ≠ 0 ∧ id < enabledCount cpus
  cells : ∀ cpu ∈ cpus, ∀ cell, cpu.startup = .spinTable cell →
    s.cells cell = if isReleased cpus s.mask cell then entry else 0

theorem testBit_set {mask id i : Nat} : (mask ||| 1 <<< id).testBit i = true ↔
    mask.testBit i = true ∨ i = id := by
  rw [Nat.testBit_or, Bool.or_eq_true, Nat.one_shiftLeft, Nat.testBit_two_pow, decide_eq_true_eq,
    eq_comm (a := id)]

/-- A further release keeps the mask and the cells in step. -/
theorem InStep.step (hcpus : Numbered cpus) {entry : Nat} {s s' : Released}
    (h : InStep cpus entry s) (hstep : ReleaseStep cpus entry s s') : InStep cpus entry s' := by
  obtain ⟨call, ops, r, hrun, hfollows, hcomplete⟩ := hstep
  rcases releaseSecondary_takes cpus _ _ entry _ _ ops r s' hrun hfollows with
    rfl | ⟨cell, htarget, hclear, hmask, hstored⟩
  · exact h
  generalize call.record.identity.logicalId = id at htarget hclear hmask
  obtain ⟨hne, -, index, cpu, hindex, hid, -, hstartup, -⟩ := validateSpinTableTarget_owns htarget
  have hcpu := List.mem_of_getElem? hindex
  have hnew : s'.mask ≠ s.mask := by
    intro hsame
    have hset : s'.mask.testBit id = true := hmask ▸ testBit_set.mpr (.inr rfl)
    rw [hsame, and_bit_eq_zero.mp hclear] at hset
    cases hset
  obtain ⟨timestamp, hr⟩ := hcomplete hnew
  have hcells := hstored timestamp hr
  constructor
  case ids =>
    intro i hi
    rw [hmask, testBit_set] at hi
    rcases hi with hi | rfl
    · exact h.ids i hi
    · exact ⟨hne, hcpus.logicalId_lt hcpu hid⟩
  case cells =>
    intro cpu' hcpu' cell' hstartup'
    by_cases hsame : cell' = cell
    · subst hsame
      have hreleased : isReleased cpus s'.mask cell' = true :=
        isReleased_iff.mpr ⟨cpu, hcpu, id, hid, hmask ▸ testBit_set.mpr (.inr rfl), hstartup⟩
      rw [hreleased, if_pos rfl, hcells, Function.update_self]
    · -- The new bit belongs to the one CPU with this number, and its cell is the other one.
      have hother : isReleased cpus s'.mask cell' = isReleased cpus s.mask cell' := by
        rw [Bool.eq_iff_iff, isReleased_iff, isReleased_iff]
        refine exists_congr fun other => and_congr_right fun hmem => exists_congr fun i =>
          and_congr_right fun hi => ?_
        rw [hmask, testBit_set]
        refine ⟨fun ⟨hbit, hother⟩ => ⟨?_, hother⟩, fun ⟨hbit, hother⟩ => ⟨.inl hbit, hother⟩⟩
        refine hbit.resolve_right fun heq => hsame ?_
        subst heq
        rw [hcpus.eq_of_logicalId hcpu hmem hid hi, hstartup] at hother
        exact (StartupMethod.spinTable.inj hother).symm
      rw [hother, hcells, Function.update_of_ne hsame]
      exact h.cells cpu' hcpu' cell' hstartup'

/-- A mask of secondaries has no bit outside the required mask. -/
theorem land_bitNot_required {mask k : Nat} (hk : k ≤ maxCpus)
    (h : ∀ id, mask.testBit id = true → id ≠ 0 ∧ id < k) : mask &&& bitNot (2 ^ k - 2) = 0 := by
  apply Nat.eq_of_testBit_eq
  intro i
  rw [Nat.testBit_and, Nat.zero_testBit]
  rcases hbit : mask.testBit i with _ | _
  · rfl
  · obtain ⟨hne, hlt⟩ := h i hbit
    have hcases : ∀ k ≤ maxCpus, ∀ i < k, i ≠ 0 → (bitNot (2 ^ k - 2)).testBit i = false := by
      decide
    rw [hcases k hk i hlt hne]
    rfl

/-- Every content but one is rejected. -/
theorem InStep.verify (hcpus : Numbered cpus) (htwo : 2 ≤ enabledCount cpus) {entry : Nat}
    {s : Released} (h : InStep cpus entry s) {cpu : CpuDescriptor} (hcpu : cpu ∈ cpus) {cell : Nat}
    (hstartup : cpu.startup = .spinTable cell) (value : Nat) :
    verifyReleaseValue cpus s.mask cell entry value = .ok () ↔ value = s.cells cell := by
  have hmask := (hcpus.fitsConsumers (by omega)).two htwo
  have hle : enabledCount cpus ≤ maxCpus := (List.length_filter_le _ _).trans hcpus.short
  have hverify : verifyReleaseValue cpus s.mask cell entry value =
      if s.mask &&& bitNot (2 ^ enabledCount cpus - 2) ≠ 0 then .error .preconditions
      else if value = if isReleased cpus s.mask cell then entry else 0 then .ok ()
      else .error .preconditions := by
    rw [verifyReleaseValue, hmask]
    rfl
  rw [hverify, if_neg (not_not.mpr (land_bitNot_required hle h.ids)),
    h.cells cpu hcpu cell hstartup]
  generalize (if isReleased cpus s.mask cell then entry else 0) = expected
  split
  · rename_i hvalue
    exact ⟨fun _ => hvalue, fun _ => rfl⟩
  · rename_i hvalue
    exact ⟨nofun, fun heq => absurd heq hvalue⟩

/-- **The readback agrees with the releases.** Whatever releases have run, one after the other, on
a topology with a secondary: for the mask they leave, `verify_release_value` accepts what a release
cell holds, and nothing else. -/
theorem release_readback_agrees (tree : CpuTree) (bootMpidr : Nat) (topology : Topology)
    (hfound : discoverCpuTopology tree bootMpidr = .ok topology)
    (hsecondary : ∃ cpu ∈ topology.cpus.entries, cpu.enabled = true ∧ cpu.logicalId ≠ some 0)
    (entry : Nat) (s₀ s : Released) (hmask : s₀.mask = 0)
    (hzero : ∀ cpu ∈ topology.cpus.entries, ∀ cell, cpu.startup = .spinTable cell →
      s₀.cells cell = 0)
    (hrun : Relation.ReflTransGen (ReleaseStep topology.cpus.entries entry) s₀ s)
    (cpu : CpuDescriptor) (hcpu : cpu ∈ topology.cpus.entries) (cell : Nat)
    (hstartup : cpu.startup = .spinTable cell) (value : Nat) :
    verifyReleaseValue topology.cpus.entries s.mask cell entry value = .ok () ↔
      value = s.cells cell := by
  have hcpus := (canonical_of_ok hfound).toNumbered
  have htwo : 2 ≤ enabledCount topology.cpus.entries := by
    obtain ⟨other, hother, henabled, hne⟩ := hsecondary
    obtain ⟨id, hlt, hid⟩ := hcpus.exists_logicalId hother henabled
    have hpos : id ≠ 0 := fun hzero => hne (hzero ▸ hid)
    omega
  have hinit : InStep topology.cpus.entries entry s₀ := by
    refine ⟨fun id hid => ?_, fun cpu hcpu cell hstartup => ?_⟩
    · rw [hmask, Nat.zero_testBit] at hid
      cases hid
    · have hnone : isReleased topology.cpus.entries s₀.mask cell = false := by
        rw [Bool.eq_false_iff, ne_eq, isReleased_iff, hmask]
        rintro ⟨_, -, id, -, hbit, -⟩
        rw [Nat.zero_testBit] at hbit
        cases hbit
      rw [hnone, hzero cpu hcpu cell hstartup]
      rfl
  have hstep : InStep topology.cpus.entries entry s := by
    induction hrun with
    | refl => exact hinit
    | tail _ hlast ih => exact ih.step hcpus hlast
  exact hstep.verify hcpus htwo hcpu hstartup value

/-- The release of the first secondary of the three CPUs, by hardware that does everything. -/
def firstRelease : Release where
  contract := ⟨true, true⟩
  record := ⟨1, ⟨1, 1, 8192, 73728, 64⟩, ⟨0, 0, 0, 0⟩, 1, 64⟩
  line := 64
  fate := ⟨fun _ => some 0, 1⟩

/-- Its operations. -/
def firstReleaseOps : List Act :=
  [.load (.slot 1 (.mailbox .ready)) (1 : Nat), .load (lifecycleCell 1) (1 : Nat),
    .load .attempted (0 : Nat), issued (.read 0xe8) (some 0),
    .load (.slot 1 (.mailbox .ready)) (1 : Nat), starts 1, issued .barrier (some 0),
    issued (.read 0xe8) (some 0), .load .attempted (0 : Nat), attempts 0 1,
    issued (.store 0xe8 0x80000) (some 0), issued (.clean 0xc0) (some 0),
    issued .barrier (some 0), issued .sendEvent (some 0)]

theorem firstRelease_step : ReleaseStep spinTableTopology.cpus.entries 0x80000 ⟨0, fun _ => 0⟩
    ⟨2, Function.update (fun _ => 0) 0xe8 0x80000⟩ := by
  refine ⟨firstRelease, firstReleaseOps, .ok 0, ?_, ?_, fun _ => ⟨0, rfl⟩⟩
  · exact .load (.load (.load (.store (.load (.exchange (.store (.store (.load (.exchange
      (.store (.store (.store (.store (.ret _))))))))))))))
  · exact .cons trivial (.cons trivial (.cons rfl (.cons rfl (.cons trivial (.cons trivial
      (.cons trivial (.cons rfl (.cons rfl (.cons rfl (.cons trivial (.cons trivial
        (.cons trivial (.cons trivial (.nil _))))))))))))))

theorem release_readback_agrees_firstRelease :
    ReleaseStep spinTableTopology.cpus.entries 0x80000 ⟨0, fun _ => 0⟩
        ⟨2, Function.update (fun _ => 0) 0xe8 0x80000⟩ ∧
      ∀ value, verifyReleaseValue spinTableTopology.cpus.entries 2 0xe8 0x80000 value = .ok () ↔
        value = 0x80000 := by
  have hfound : discoverCpuTopology spinTableTree 0 = .ok spinTableTopology := by decide +kernel
  refine ⟨firstRelease_step, fun value => ?_⟩
  have hagrees := release_readback_agrees spinTableTree 0 spinTableTopology hfound
    ⟨⟨1, true, some 1, .spinTable 0xe8⟩, by decide, rfl, by decide⟩ 0x80000 ⟨0, fun _ => 0⟩
    ⟨2, Function.update (fun _ => 0) 0xe8 0x80000⟩ rfl (fun _ _ _ _ => rfl)
    (.single firstRelease_step) ⟨1, true, some 1, .spinTable 0xe8⟩ (by decide) 0xe8 rfl value
  simpa using hagrees

end Tvisor.StartupPublication
