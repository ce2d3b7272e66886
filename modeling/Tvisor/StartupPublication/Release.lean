/-
# Tvisor.StartupPublication.Release -- a secondary CPU is released at most once

Two kinds of facts meet here. What one release has done before it stores is a fact about its own
operations, whatever the others do in between: `releaseSecondary_along` walks through the call with
them. That no CPU gets a second store is a fact about the shared memory: bits of the mask are never
cleared and a lifecycle that has reached `Starting` never goes back, because nothing writes these
words but exchanges that respect both.

The client is any client: any number of release calls at once, and every operation of every mailbox
at any time.
-/
import Tvisor.SecondaryMailbox.Steps
import Tvisor.StartupPublication

namespace Tvisor.StartupPublication

open Interleave Fallible CpuTopology SecondaryEntry
open SecondaryMailbox (CpuState)

abbrev Act := Action Val

/-- A hardware operation with its outcome, as an operation of the history. -/
abbrev issued (op : HardwareOp) (outcome : Option Nat) : Act := .store .bus (some ⟨op, outcome⟩)

/-- The move of a slot's CPU to `Starting`. -/
abbrev starts (slot : Nat) : Act :=
  .exchange (lifecycleCell slot) CpuState.prepared.toWord
    CpuState.starting.toWord true

/-- The mask of attempted releases gets the bit of a CPU. -/
abbrev attempts (mask id : Nat) : Act := .exchange .attempted mask (mask ||| 1 <<< id) true

variable {A : Type} {slot id mask : Nat} {x : SecondaryMailbox.Attempt A} {a : Act}

/-! ## The mask and the lifecycle words -/

/-- The mask changes by a bit that was clear, a lifecycle word along an edge and the boot word not
at all. -/
structure Lawful (a : Act) : Prop where
  boot : a.loc = .boot → a.IsRead
  mask : a.loc = .attempted → a.IsRead ∨
    ∃ mask id, mask &&& 1 <<< id = 0 ∧ a = attempts mask id
  lifecycle : ∀ slot, a.loc = lifecycleCell slot → a.IsRead ∨
    ∃ s s', SecondaryMailbox.Edge s s' ∧
      a = .exchange (lifecycleCell slot) s.toWord s'.toWord true

theorem lawful_of_read (h : a.IsRead) : Lawful a :=
  ⟨fun _ => h, fun _ => .inl h, fun _ _ => .inl h⟩

theorem lawful_of_ne (hboot : a.loc ≠ .boot) (hmask : a.loc ≠ .attempted)
    (hlifecycle : ∀ slot, a.loc ≠ lifecycleCell slot) : Lawful a :=
  ⟨fun h => absurd h hboot, fun h => absurd h hmask, fun slot h => absurd h (hlifecycle slot)⟩

theorem lawful_of_orderly {a : SecondaryMailbox.Operation} (h : SecondaryMailbox.Orderly a) :
    Lawful (a.embed fun c => Cell.slot slot (.mailbox c)) := by
  cases a with
  | load c v => exact lawful_of_read trivial
  | store c v => exact h.elim
  | swap c new old => exact h.elim
  | exchange c expected new success =>
    rcases success with _ | _
    · exact lawful_of_read rfl
    cases c with
    | ready | entryClaimed => exact lawful_of_ne Cell.noConfusion Cell.noConfusion nofun
    | state =>
      obtain ⟨s, s', hedge, rfl, rfl⟩ := h
      refine ⟨nofun, nofun, ?_⟩
      rintro _ ⟨⟩
      exact .inr ⟨s, s', hedge, rfl⟩

theorem lawful_issued (op : HardwareOp) (outcome : Option Nat) : Lawful (issued op outcome) :=
  lawful_of_ne Cell.noConfusion Cell.noConfusion nofun

/-! ## What a release has done before -/

/-- None of the operations is a store to a release cell. -/
def NoStore (past : List Act) : Prop :=
  ∀ address value outcome, issued (.store address value) outcome ∉ past

/-- What stands before a hardware operation of a release: the lifecycle was seen at `Prepared`; and
before a store to a release cell, in this order, the move to `Starting`, a successful barrier, a
read of the cell as zero and the bit of the CPU in the mask of attempted releases. -/
structure InOrder (cpus : List CpuDescriptor) (record : StartupView) (entry : Nat)
    (past : List Act) (io : Io) : Prop where
  prepared : .load (lifecycleCell record.slot) CpuState.prepared.toWord ∈ past
  released : ∀ address value, io.op = .store address value →
    validateSpinTableTarget cpus record.identity.logicalId = .ok address ∧ value = entry ∧
    NoStore past ∧ ∃ mask barrier, mask &&& 1 <<< record.identity.logicalId = 0 ∧
      [attempts mask record.identity.logicalId, issued (.read address) (some 0),
        issued .barrier (some barrier), starts record.slot].Sublist past

section Walk

variable {ok : List Act → Act → Prop} {past : List Act}

theorem orElse_along {ε ε' : Type} {e : ε} {x : Ops (Except (Stop ε') A)}
    {Φ : A → List Act → Prop} (h : x.Along ok (fun r past' => ∀ a, r = .ok a → Φ a past') past) :
    (orElse e x).run.Along ok (fun r past' => ∀ a, r = .ok a → Φ a past') past := by
  refine .lifted (h.bind fun r past' hr => ?_)
  rcases r with (e' | _) | a
  · exact nofun
  · exact nofun
  · rintro _ ⟨⟩
    exact hr a rfl

theorem perform_along {op : HardwareOp} {outcome : Option Nat} (h : ok past (issued op outcome)) :
    (perform op outcome).run.Along ok
      (fun r past' => ∀ v, r = .ok v → outcome = some v ∧ past' = issued op outcome :: past)
      past := by
  refine .lifted ⟨h, ?_⟩
  rcases outcome with _ | v
  · exact nofun
  · rintro _ ⟨⟩
    exact ⟨rfl, rfl⟩

variable (hok : ∀ past a, a.loc ≠ .bus → Lawful a → ok past a)

include hok

/-- An operation of a mailbox leaves the operations that the method makes there. -/
theorem mailbox_along {Φ : A → List SecondaryMailbox.Operation → Prop}
    (h : x.run.Along (fun _ => SecondaryMailbox.Orderly)
      (fun r new => ∀ a, r = .ok a → Φ a new) []) :
    (mailbox slot x).Along ok (fun r past' => ∀ a, r = .ok a → ∃ new, Φ a new ∧
      past' = new.map (Action.embed fun c => .slot slot (.mailbox c)) ++ past) past := by
  refine .embed (h.imp (P := fun _ => True)
    (fun new a _ ha => ⟨hok _ _ ?_ (lawful_of_orderly ha), trivial⟩)
    (fun r new _ hr a ha => ⟨new, hr a ha, rfl⟩) trivial)
  rw [Action.embed_loc]
  exact Cell.noConfusion

theorem state_along (slot generation : Nat) :
    (mailbox slot (SecondaryMailbox.state generation)).Along ok
      (fun r past' => ∀ s, r = .ok s → generation ≠ 0 ∧
        past' = .load (lifecycleCell slot) s.toWord ::
          .load (.slot slot (.mailbox .ready)) generation :: past) past := by
  refine (mailbox_along hok (SecondaryMailbox.state_along
    (fun _ _ => SecondaryMailbox.orderly_of_load) generation)).post ?_
  intro r past' hr s hs
  obtain ⟨_, ⟨hg, rfl⟩, rfl⟩ := hr s hs
  exact ⟨hg, rfl⟩

theorem beginStart_along (slot generation : Nat) :
    (mailbox slot (SecondaryMailbox.beginStart generation)).Along ok
      (fun r past' => ∀ u, r = .ok u →
        past' = starts slot :: .load (.slot slot (.mailbox .ready)) generation :: past) past := by
  refine (mailbox_along hok (SecondaryMailbox.transition_along (fun _ _ h => h) generation
    .start)).post ?_
  intro r past' hr u hu
  obtain ⟨_, rfl, rfl⟩ := hr u hu
  rfl

/-- The last exchange of `fetch_update` is the one that set the bit. -/
theorem setAttempted_along {P : List Act → Prop}
    (hP : ∀ past a, a.loc ≠ .bus → P past → P (a :: past)) {tries : Nat} (h : P past) :
    (setAttempted (1 <<< id) tries mask).run.Along ok
      (fun r past' => ∀ u, r = .ok u → ∃ mask past'', mask &&& 1 <<< id = 0 ∧ P past'' ∧
        past' = attempts mask id :: past'') past := by
  induction tries generalizing mask past with
  | zero => exact nofun
  | succ tries ih =>
    unfold setAttempted
    split
    · exact nofun
    rename_i hmask
    replace hmask := not_not.mp hmask
    refine .lifted fun b => ⟨hok _ _ Cell.noConfusion ?_, ?_⟩
    · rcases b with _ | _
      · exact lawful_of_read rfl
      · exact ⟨nofun, fun _ => .inr ⟨mask, id, hmask, rfl⟩, nofun⟩
    rcases b with _ | _
    · refine .lifted fun v => ⟨hok _ _ Cell.noConfusion (lawful_of_read trivial), ih ?_⟩
      exact hP _ _ Cell.noConfusion (hP _ _ Cell.noConfusion h)
    · exact fun _ _ => ⟨mask, past, hmask, h, rfl⟩

end Walk

variable {cpus : List CpuDescriptor} {record : StartupView} {entry : Nat}

theorem releaseCell_target {contract : EntryContract} {line cell : Nat}
    (h : releaseCell cpus contract record entry line = .ok cell) :
    validateSpinTableTarget cpus record.identity.logicalId = .ok cell := by
  unfold releaseCell at h
  split at h
  · cases h
  rename_i cell' hcell
  have htarget := validateSpinTableRelease_target hcell
  suffices hsame : cell' = cell from hsame ▸ htarget
  split at h
  · cases h
  split at h
  · cases h
  split at h
  · cases h
  split at h
  · cases h
  · exact Except.ok.inj h

/-- Every hardware operation of a release is in order. -/
def Ordered (cpus : List CpuDescriptor) (record : StartupView) (entry : Nat) (past : List Act)
    (a : Act) : Prop :=
  ∀ io, a = .store .bus io → ∃ io', io = some io' ∧ InOrder cpus record entry past io'

/-- What a release may do. -/
def Releases (cpus : List CpuDescriptor) (record : StartupView) (entry : Nat) (past : List Act)
    (a : Act) : Prop :=
  Lawful a ∧ Ordered cpus record entry past a

theorem releases_of_ne (past : List Act) (a : Act) (h : a.loc ≠ .bus) (hlawful : Lawful a) :
    Releases cpus record entry past a := by
  refine ⟨hlawful, ?_⟩
  rintro _ rfl
  exact absurd rfl h

variable {past : List Act}

/-- An operation that is no store to a release cell needs the lifecycle seen only. -/
theorem releases_of_prepared {op : HardwareOp} {outcome : Option Nat}
    (h : .load (lifecycleCell record.slot) CpuState.prepared.toWord ∈ past)
    (hop : ∀ address value, op ≠ .store address value) :
    Releases cpus record entry past (issued op outcome) := by
  refine ⟨lawful_issued op outcome, ?_⟩
  rintro _ ⟨⟩
  exact ⟨_, rfl, h, fun address value heq => absurd heq (hop address value)⟩

theorem noStore_cons (h : NoStore past)
    (ha : ∀ address value outcome, a ≠ issued (.store address value) outcome) :
    NoStore (a :: past) := by
  intro address value outcome hmem
  rcases List.mem_cons.mp hmem with heq | hold
  · exact ha address value outcome heq.symm
  · exact h address value outcome hold

theorem noStore_cons_of_ne (h : NoStore past) (ha : a.loc ≠ .bus) :
    NoStore (a :: past) :=
  noStore_cons h fun _ _ _ heq => ha (heq ▸ rfl)

/-- What stands before the exchanges of the mask. -/
structure AboutToMark (cell slot barrier : Nat) (past : List Act) : Prop where
  prepared : .load (lifecycleCell slot) CpuState.prepared.toWord ∈ past
  noStore : NoStore past
  steps : [issued (.read cell) (some 0), issued .barrier (some barrier), starts slot].Sublist past

theorem AboutToMark.cons {cell barrier : Nat} (past : List Act) (a : Act) (ha : a.loc ≠ .bus)
    (h : AboutToMark cell slot barrier past) : AboutToMark cell slot barrier (a :: past) :=
  ⟨List.mem_cons_of_mem _ h.prepared, noStore_cons_of_ne h.noStore ha, h.steps.cons _⟩

theorem releaseSecondary_along (cpus : List CpuDescriptor) (contract : EntryContract)
    (record : StartupView) (entry line : Nat) (fate : Fate) :
    (releaseSecondary cpus contract record entry line fate).run.Along
      (Releases cpus record entry) (fun _ _ => True) [] := by
  have hquiet : ∀ past (a : Act), a.loc ≠ .bus → Lawful a → Releases cpus record entry past a :=
    releases_of_ne
  unfold releaseSecondary
  split
  · trivial
  rename_i cell hcell
  refine .run_bind (orElse_along (state_along hquiet _ _)) (fun s past₁ h₁ => ?_)
    fun _ _ _ => trivial
  split
  · trivial
  rename_i hs
  obtain ⟨_, rfl⟩ := h₁ s rfl
  obtain rfl : s = .prepared := not_not.mp hs
  refine .lifted fun seen => ⟨hquiet _ _ Cell.noConfusion (lawful_of_read trivial), ?_⟩
  show Prog.Along _ _ (ExceptT.run (if _ then _ else _)) _
  split
  · trivial
  refine .run_bind (perform_along (releases_of_prepared (by simp) nofun)) (fun v₀ past₂ h₂ => ?_)
    fun _ _ _ => trivial
  split
  · trivial
  obtain ⟨_, rfl⟩ := h₂ v₀ rfl
  refine .run_bind (orElse_along (beginStart_along hquiet _ _)) (fun u past₃ h₃ => ?_)
    fun _ _ _ => trivial
  obtain rfl := h₃ u rfl
  refine .run_bind (perform_along (releases_of_prepared (by simp) nofun))
    (fun barrier past₄ h₄ => ?_)
    fun _ _ _ => trivial
  obtain ⟨hbarrier, rfl⟩ := h₄ barrier rfl
  refine .run_bind (perform_along (releases_of_prepared (by simp) nofun)) (fun v₁ past₅ h₅ => ?_)
    fun _ _ _ => trivial
  split
  · trivial
  rename_i hv₁
  obtain ⟨hread, rfl⟩ := h₅ v₁ rfl
  obtain rfl : v₁ = 0 := not_not.mp hv₁
  refine .lifted fun mask => ⟨hquiet _ _ Cell.noConfusion (lawful_of_read trivial), ?_⟩
  have hmark : AboutToMark cell record.slot barrier (.load .attempted mask ::
      issued (.read cell) (fate.io 2) :: issued .barrier (fate.io 1) :: starts record.slot ::
      .load (.slot record.slot (.mailbox .ready)) record.generation ::
      issued (.read cell) (fate.io 0) :: .load .attempted seen ::
      [.load (lifecycleCell record.slot) CpuState.prepared.toWord,
        .load (.slot record.slot (.mailbox .ready)) record.generation]) := by
    refine ⟨by simp, ?_, ?_⟩
    · simp [NoStore, issued]
    · rw [hread, hbarrier]
      exact .cons _ (.cons_cons _ (.cons_cons _ (.cons_cons _ (List.nil_sublist _))))
  refine .run_bind (setAttempted_along hquiet AboutToMark.cons hmark) (fun u past₆ h₆ => ?_)
    fun _ _ _ => trivial
  obtain ⟨mask', past₇, hclear, hmark', rfl⟩ := h₆ u rfl
  have hstore : Releases cpus record entry (attempts mask' record.identity.logicalId :: past₇)
      (issued (.store cell entry) (fate.io 3)) := by
    refine ⟨lawful_issued _ _, ?_⟩
    rintro _ ⟨⟩
    refine ⟨_, rfl, List.mem_cons_of_mem _ hmark'.prepared, ?_⟩
    rintro _ _ ⟨⟩
    exact ⟨releaseCell_target hcell, rfl, noStore_cons_of_ne hmark'.noStore Cell.noConfusion,
      mask', barrier, hclear, hmark'.steps.cons_cons _⟩
  have hprepared := hmark'.prepared
  refine .run_bind (perform_along hstore) (fun v past₈ h₈ => ?_) fun _ _ _ => trivial
  obtain ⟨_, rfl⟩ := h₈ v rfl
  refine .run_bind (perform_along (releases_of_prepared (by simp [hprepared]) nofun))
    (fun w past₉ h₉ => ?_) fun _ _ _ => trivial
  obtain ⟨_, rfl⟩ := h₉ w rfl
  refine .run_bind (perform_along (releases_of_prepared (by simp [hprepared]) nofun))
    (fun w past₁₀ h₁₀ => ?_) fun _ _ _ => trivial
  obtain ⟨_, rfl⟩ := h₁₀ w rfl
  exact .run_bind (perform_along (releases_of_prepared (by simp [hprepared]) nofun))
    (fun _ _ _ => trivial) fun _ _ _ => trivial

/-! ## Any client -/

inductive Call where
  | release (contract : EntryContract) (record : StartupView) (entry line : Nat) (fate : Fate)
  | mailbox (slot : Nat) (call : SecondaryMailbox.Call)

inductive Reply where
  | released (r : Except (Halt PublicationError) Nat)
  | mailbox (r : SecondaryMailbox.Reply)

def mailboxCode (slot : Nat) (call : SecondaryMailbox.Call) : Ops SecondaryMailbox.Reply :=
  (SecondaryMailbox.code call).embed fun c => .slot slot (.mailbox c)

def code (cpus : List CpuDescriptor) : Call → Ops Reply
  | .release contract record entry line fate => do
      return .released (← (releaseSecondary cpus contract record entry line fate).run)
  | .mailbox slot call => do return .mailbox (← mailboxCode slot call)

/-- Every call may start at any time. -/
def system (cpus : List CpuDescriptor) (Tid : Type) : System Val Tid Call Reply Unit where
  code := code cpus
  start _ _ _ := some ()
  finish _ _ _ _ := ()

section Lawful

/-- What only loads is lawful. -/
theorem lawful_of_loads {p : Ops A} (h : p.Only Action.IsLoad) :
    p.Only Lawful := h.mono fun _ ha => lawful_of_read ha.isRead

theorem load_loads (c : Cell) : (load c).Only Action.IsLoad :=
  fun v => ⟨⟨c, v, rfl⟩, trivial⟩

theorem load_lawful (c : Cell) : (load c).Only Lawful :=
  lawful_of_loads (load_loads c)

theorem perform_lawful (op : HardwareOp) (outcome : Option Nat) :
    (perform op outcome).run.Only Lawful := by
  have hop : (store .bus (some ⟨op, outcome⟩)).Only Lawful := ⟨lawful_issued op outcome, trivial⟩
  refine .liftThen hop fun _ => ?_
  split <;> trivial

/-- Changing the errors changes no operation. -/
theorem orElse_forall {may : Act → Prop} {ε ε' : Type} {e : ε} {x : Ops (Except (Stop ε') A)}
    (h : x.Only may) : (orElse e x).run.Only may := by
  refine .liftThen h fun r => ?_
  split <;> trivial

theorem mailbox_lawful (h : x.run.Only SecondaryMailbox.Orderly) : (mailbox slot x).Only Lawful :=
  .embed (h.mono fun _ => lawful_of_orderly)

theorem mailbox_loads (h : x.run.Only Action.IsLoad) : (mailbox slot x).Only Action.IsLoad :=
  .embed (h.mono fun _ h => h.embed)

theorem releaseSecondary_lawful (cpus : List CpuDescriptor) (contract : EntryContract)
    (record : StartupView) (entry line : Nat) (fate : Fate) :
    (releaseSecondary cpus contract record entry line fate).run.Only Lawful :=
  (releaseSecondary_along cpus contract record entry line fate).only fun _ _ h => h.1

theorem mailboxCode_lawful (slot : Nat) (call : SecondaryMailbox.Call) :
    (mailboxCode slot call).Only Lawful :=
  .embed ((SecondaryMailbox.code_orderly call).mono fun _ => lawful_of_orderly)

end Lawful

variable {Tid : Type}

abbrev World (Tid : Type) := Shared Val Tid Call Reply Unit

theorem and_bit_eq_zero : mask &&& 1 <<< id = 0 ↔ mask.testBit id = false := by
  rw [Nat.one_shiftLeft, Nat.and_two_pow]
  rcases mask.testBit id with _ | _ <;> simp

/-- Every bit of the mask stays. -/
def MaskGrows (m m' : ∀ c, Val c) : Prop :=
  ∀ id, (m .attempted).testBit id = true → (m' .attempted).testBit id = true

/-- A lifecycle that has reached `Starting` does not go back behind it. -/
def StartedStays (m m' : ∀ c, Val c) : Prop :=
  ∀ slot, 2 ≤ m (lifecycleCell slot) → 2 ≤ m' (lifecycleCell slot)

theorem Lawful.maskGrows (h : Lawful a) {m : ∀ c, Val c} (hen : a.Enabled m) :
    MaskGrows m (a.apply m) := by
  intro id hid
  by_cases hloc : Cell.attempted = a.loc
  · rcases h.mask hloc.symm with hread | ⟨mask, id', _, rfl⟩
    · rw [hread.apply_eq]
      exact hid
    · obtain rfl : m .attempted = mask := hen.mp rfl
      rw [Action.apply_exchange_self, Nat.testBit_or, hid, Bool.true_or]
  · rw [a.apply_of_ne hloc]
    exact hid

theorem Lawful.startedStays (h : Lawful a) {m : ∀ c, Val c} (hen : a.Enabled m) :
    StartedStays m (a.apply m) := by
  intro slot hslot
  by_cases hloc : lifecycleCell slot = a.loc
  · rcases h.lifecycle slot hloc.symm with hread | ⟨s, s', hedge, rfl⟩
    · rw [hread.apply_eq]
      exact hslot
    · have hs : m (lifecycleCell slot) = s.toWord := hen.mp rfl
      rw [Action.apply_exchange_self]
      exact hedge.started (hs ▸ hslot)
  · rw [a.apply_of_ne hloc]
    exact hslot

/-- The invariant: the mask and the lifecycle words show what has happened, no bit was set twice and
after a move to `Starting` nobody has seen the CPU before it. -/
structure Bookkept (σ : World Tid) : Prop where
  started : ∀ i slot, .act i (starts slot) ∈ σ.history → 2 ≤ σ.mem (lifecycleCell slot)
  seen : ∀ i slot v older, .act i (.load (lifecycleCell slot) v) :: older <:+ σ.history →
    ∀ j, .act j (starts slot) ∈ older → 2 ≤ v
  marked : ∀ i mask id, .act i (attempts mask id) ∈ σ.history →
    (σ.mem .attempted).testBit id = true
  once : ∀ i mask id older, mask &&& 1 <<< id = 0 →
    .act i (attempts mask id) :: older <:+ σ.history → ∀ j mask', .act j (attempts mask' id) ∉ older

variable {σ : World Tid}

/-- An event that is no operation. -/
theorem Bookkept.other {σ' : World Tid} {ev : Event Val Tid Call Reply} (h : Bookkept σ)
    (hmem : σ'.mem = σ.mem) (hhistory : σ'.history = ev :: σ.history) (hev : ∀ i a, ev ≠ .act i a) :
    Bookkept σ' := by
  refine ⟨?_, ?_, ?_, ?_⟩
  · rw [hhistory, hmem]
    exact fun i slot hact => h.started i slot (act_mem_of_ne hev hact)
  · rw [hhistory]
    exact fun i slot v older hact => h.seen i slot v older (act_suffix_of_ne hev hact)
  · rw [hhistory, hmem]
    exact fun i mask id hact => h.marked i mask id (act_mem_of_ne hev hact)
  · rw [hhistory]
    exact fun i mask id older hclear hact =>
      h.once i mask id older hclear (act_suffix_of_ne hev hact)

theorem Bookkept.acted (h : Bookkept σ) (i : Invocation Val Tid Call) (ha : Lawful a)
    (hen : a.Enabled σ.mem) : Bookkept (σ.acted i a) where
  started j slot hact := by
    rcases List.mem_cons.mp hact with heq | hold
    · obtain ⟨rfl, rfl⟩ := Event.act.inj heq
      rw [Shared.acted_exchange_self]
      exact Nat.le_refl 2
    · exact ha.startedStays hen slot (h.started j slot hold)
  seen j slot v older hact k hk := by
    rcases List.suffix_cons_iff.mp hact with heq | hold
    · obtain ⟨hev, rfl⟩ := List.cons.inj heq
      obtain ⟨rfl, rfl⟩ := Event.act.inj hev
      obtain rfl : v = σ.mem (lifecycleCell slot) := hen
      exact h.started k slot hk
    · exact h.seen j slot v older hold k hk
  marked j mask id hact := by
    rcases List.mem_cons.mp hact with heq | hold
    · obtain ⟨rfl, rfl⟩ := Event.act.inj heq
      rw [Shared.acted_exchange_self, Nat.testBit_or, Nat.one_shiftLeft, Nat.testBit_two_pow_self,
        Bool.or_true]
    · exact ha.maskGrows hen id (h.marked j mask id hold)
  once j mask id older hclear hact k mask' hk := by
    rcases List.suffix_cons_iff.mp hact with heq | hold
    · obtain ⟨hev, rfl⟩ := List.cons.inj heq
      obtain ⟨rfl, rfl⟩ := Event.act.inj hev
      obtain rfl : σ.mem .attempted = mask := hen.mp rfl
      have hset := h.marked k mask' id hk
      rw [and_bit_eq_zero.mp hclear] at hset
      exact Bool.noConfusion hset
    · exact h.once j mask id older hclear hold k mask' hk

/-! ## Every run -/

/-- What a call does to the hardware, after what it has done itself. A mailbox leaves it alone. -/
def Permitted (cpus : List CpuDescriptor) : Call → List Act → Act → Prop
  | .release _ record entry _ _ => Releases cpus record entry
  | .mailbox _ _ => fun _ a => Lawful a ∧ a.loc ≠ .bus

theorem code_along (cpus : List CpuDescriptor) (call : Call) :
    (code cpus call).Along (Permitted cpus call) (fun _ _ => True) [] := by
  cases call with
  | release contract record entry line fate =>
    exact (releaseSecondary_along cpus contract record entry line fate).bind
      fun _ _ _ => trivial
  | mailbox slot call =>
    have hcode : (mailboxCode slot call).Along (fun _ a => Lawful a ∧ a.loc ≠ .bus)
        (fun _ _ => True) [] := by
      refine .embed ((SecondaryMailbox.code_orderly call).mono fun a ha => ?_).along
      refine ⟨lawful_of_orderly ha, ?_⟩
      rw [Action.embed_loc]
      exact Cell.noConfusion
    exact hcode.bind fun _ _ _ => trivial

theorem code_lawful (cpus : List CpuDescriptor) (call : Call) : (code cpus call).Only Lawful := by
  refine (code_along cpus call).only fun past a h => ?_
  cases call <;> exact h.1

section Runs

variable [DecidableEq Tid] {m : ∀ c, Val c}
  {c c' : Config Val Tid Call Reply Unit} {ev : Event Val Tid Call Reply}

def bookkeeping (Tid : Type) : Outline Val Tid Call Reply Unit :=
  .free Bookkept fun σ _ σ' => MaskGrows σ.mem σ'.mem

omit [DecidableEq Tid] in
theorem bookkeeping_proves : (bookkeeping Tid).Proves (system cpus Tid) := by
  refine Outline.free_proves (code_lawful cpus) (fun σ i env h => ?_) (fun σ i a h hen ha => ?_)
    fun σ i r env h => ?_
  · exact ⟨h.other rfl rfl (Event.start_ne_act i), fun _ => id⟩
  · exact ⟨h.acted i ha hen, ha.maskGrows hen⟩
  · exact ⟨h.other rfl rfl fun j a => Event.ret_ne_act i j r a, fun _ => id⟩

omit [DecidableEq Tid] in
theorem bookkept_initial : Bookkept (⟨m, (), []⟩ : World Tid) :=
  ⟨by simp, by simp, by simp, by simp⟩

theorem bookkept (h : Reach (system cpus Tid) ⟨m, (), []⟩ c) : Bookkept c.shared :=
  (Outline.sound bookkeeping_proves bookkept_initial h).inv

/-- A store to a release cell is made by a release of the CPU that owns the cell, after its steps.
-/
theorem store_inOrder (h : Reach (system cpus Tid) ⟨m, (), []⟩ c) {i : Invocation Val Tid Call}
    {io : Option Io} {older : List (Event Val Tid Call Reply)}
    (hstore : .act i (.store .bus io) :: older <:+ c.shared.history) :
    ∃ contract record entry line fate io', io = some io' ∧
      i.call = .release contract record entry line fate ∧
      InOrder cpus record entry (own i older) io' := by
  have hact := (traced (code_along cpus) h).act i _ older hstore
  rcases hcall : i.call with ⟨contract, record, entry, line, fate⟩ | ⟨slot, call⟩
  · rw [hcall] at hact
    obtain ⟨io', rfl, hin⟩ := hact.2 io rfl
    exact ⟨contract, record, entry, line, fate, io', rfl, rfl, hin⟩
  · rw [hcall] at hact
    exact absurd rfl hact.2

omit [DecidableEq Tid] in
/-- One call at most sets the bit of a CPU. -/
theorem Bookkept.attempts_unique (h : Bookkept σ) {i j : Invocation Val Tid Call} {mask' : Nat}
    (hclear : mask &&& 1 <<< id = 0) (hclear' : mask' &&& 1 <<< id = 0)
    (hi : .act i (attempts mask id) ∈ σ.history) (hj : .act j (attempts mask' id) ∈ σ.history) :
    i = j := by
  obtain ⟨older, hi⟩ := suffix_of_mem hi
  obtain ⟨older', hj⟩ := suffix_of_mem hj
  rcases List.suffix_or_suffix_of_suffix hi hj with hle | hle
  · rcases List.suffix_cons_iff.mp hle with heq | hbefore
    · exact (Event.act.inj (List.cons.inj heq).1).1
    · exact absurd (hbefore.subset List.mem_cons_self) (h.once j mask' id older' hclear' hj i mask)
  · rcases List.suffix_cons_iff.mp hle with heq | hbefore
    · exact (Event.act.inj (List.cons.inj heq).1).1.symm
    · exact absurd (hbefore.subset List.mem_cons_self) (h.once i mask id older hclear hi j mask')

/-- In every run, whatever the calls, their outcomes and the interleaving: a store to a release cell
writes the entry address of its call to the cell that its CPU alone owns, after the move to
`Starting`, a barrier, a second read as zero and the bit in the mask, and no store for the same CPU
was issued before it; a release that starts after the CPU was moved to `Starting` issues no
hardware operation; and no bit of the mask is ever cleared. -/
theorem secondary_released_at_most_once (h : Reach (system cpus Tid) ⟨m, (), []⟩ c) :
    (∀ i address value outcome older,
      .act i (issued (.store address value) outcome) :: older <:+ c.shared.history →
      ∃ contract record line fate, i.call = .release contract record value line fate ∧
        OwnsCell cpus record.identity.logicalId address ∧
        (∃ mask barrier, mask &&& 1 <<< record.identity.logicalId = 0 ∧
          [.act i (attempts mask record.identity.logicalId),
            .act i (issued (.read address) (some 0)), .act i (issued .barrier (some barrier)),
            .act i (starts record.slot)].Sublist older) ∧
        ∀ j address' value' outcome',
          .act j (issued (.store address' value') outcome') ∈ older →
          ∀ contract' record' entry' line' fate',
            j.call = .release contract' record' entry' line' fate' →
            record'.identity.logicalId ≠ record.identity.logicalId) ∧
    (∀ i older contract record entry line fate, .start i :: older <:+ c.shared.history →
      i.call = .release contract record entry line fate →
      ∀ j, .act j (starts record.slot) ∈ older → ∀ io, .act i (.store .bus io) ∉ c.shared.history) ∧
    ∀ ev c', Step (system cpus Tid) c ev c' → MaskGrows c.shared.mem c'.shared.mem := by
  have htraced := traced (code_along cpus) h
  have hbooks := bookkept h
  refine ⟨fun i address value outcome older hstore => ?_,
    fun i older contract record entry line fate hstart hcall j hmoved io hio => ?_,
    fun ev c' hstep => Outline.sound_step bookkeeping_proves bookkept_initial h hstep⟩
  · obtain ⟨contract, record, entry, line, fate, io', hio, hcall, hin⟩ := store_inOrder h hstore
    cases hio
    obtain ⟨htarget, rfl, hnone, mask, barrier, hclear, hsteps⟩ := hin.released address value rfl
    have hown := htraced.own_sublist rfl hstore
    have hsublist := (hsteps.map (Event.act i)).trans hown
    refine ⟨contract, record, line, fate, hcall, (validateSpinTableTarget_owns htarget).2.2,
      ⟨mask, barrier, hclear, hsublist⟩, ?_⟩
    intro j address' value' outcome' hj contract' record' entry' line' fate' hcall' hsame
    -- The earlier store has set the same bit, so it is a store of the same call.
    obtain ⟨older', hj'⟩ := suffix_of_mem hj
    have hj'' := hj'.trans ((List.suffix_cons _ older).trans hstore)
    obtain ⟨_, _, _, _, _, _, hio', hcall'', hin'⟩ := store_inOrder h hj''
    cases hio'
    rw [hcall'] at hcall''
    cases hcall''
    obtain ⟨_, _, _, mask', _, hclear', hsteps'⟩ := hin'.released address' value' rfl
    have hmark' := hj''.subset (List.mem_cons_of_mem _
      (htraced.mem_of_own (hsteps'.subset List.mem_cons_self) hj'' rfl))
    have hmark := hstore.subset (List.mem_cons_of_mem _ (hsublist.subset List.mem_cons_self))
    rw [hsame] at hclear' hmark'
    obtain rfl := hbooks.attempts_unique hclear hclear' hmark hmark'
    exact hnone address' value' outcome' (mem_own hj)
  · obtain ⟨older₁, hio⟩ := suffix_of_mem hio
    obtain ⟨_, _, _, _, _, _, _, hcall', hin⟩ := store_inOrder h hio
    rw [hcall] at hcall'
    cases hcall'
    obtain ⟨older₂, hload'⟩ := suffix_of_mem (htraced.mem_of_own hin.prepared hio rfl)
    have hload'' := hload'.trans ((List.suffix_cons _ older₁).trans hio)
    have hafter := htraced.after_start hstart hload''
    have hlate : 2 ≤ CpuState.prepared.toWord :=
      hbooks.seen i record.slot _ older₂ hload'' j (hafter hmoved)
    exact Nat.not_succ_le_self 1 hlate

end Runs

/-- A boot CPU, and a secondary behind a release cell. -/
def twoCpus : List CpuDescriptor :=
  [⟨0, true, some 0, .missing⟩, ⟨1, true, some 1, .spinTable 0x80⟩]

/-- The secondary is prepared and published. -/
def preparedOne : ∀ c, Val c
  | .bus => none
  | .slot 1 (.mailbox .state) | .slot 1 (.mailbox .ready) => 1
  | .boot | .attempted | .frozen | .fatal | .config _ | .slot _ _ | .failures _ => 0

/-- A release of the secondary in which the hardware does everything. -/
def releaseOne : Call :=
  .release ⟨true, true⟩ ⟨1, ⟨1, 1, 8192, 73728, 64⟩, ⟨0, 0, 0, 0⟩, 1, 64⟩ 0x80000 64
    ⟨fun _ => some 0, 1⟩

/-- The whole release, and a second one up to the point where it would return. -/
def releaseTwice : List (Move Nat Call) :=
  .start 0 releaseOne :: List.replicate 15 (.next 0) ++ [.start 1 releaseOne, .next 1, .next 1]

theorem secondary_released_at_most_once_releaseTwice :
    ∃ c i, Config.run (system twoCpus Nat) ⟨⟨preparedOne, (), []⟩, fun _ => none⟩ releaseTwice =
        some c ∧
      .act i (issued (.store 0x80 0x80000) (some 0)) ∈ c.shared.history ∧
      (∃ contract record line fate, i.call = .release contract record 0x80000 line fate ∧
        OwnsCell twoCpus record.identity.logicalId 0x80) ∧
      ∀ j older, .start j :: older <:+ c.shared.history → j.call = releaseOne →
        .act i (starts 1) ∈ older → ∀ io, .act j (.store .bus io) ∉ c.shared.history := by
  have happly : ∀ c i, Config.run (system twoCpus Nat) ⟨⟨preparedOne, (), []⟩, fun _ => none⟩
        releaseTwice = some c →
      .act i (issued (.store 0x80 0x80000) (some 0)) ∈ c.shared.history →
      (∃ contract record line fate, i.call = .release contract record 0x80000 line fate ∧
        OwnsCell twoCpus record.identity.logicalId 0x80) ∧
      ∀ j older, .start j :: older <:+ c.shared.history → j.call = releaseOne →
        .act i (starts 1) ∈ older → ∀ io, .act j (.store .bus io) ∉ c.shared.history := by
    intro c i hrun hmem
    obtain ⟨hstores, hlater, _⟩ := secondary_released_at_most_once (Config.run_steps hrun)
    obtain ⟨older, hsuffix⟩ := suffix_of_mem hmem
    obtain ⟨contract, record, line, fate, hcall, howns, _⟩ := hstores i _ _ _ older hsuffix
    exact ⟨⟨contract, record, line, fate, hcall, howns⟩, fun j older hstart hcall hmoved =>
      hlater j older _ _ _ _ _ hstart hcall i hmoved⟩
  have hstore : ∃ c i, Config.run (system twoCpus Nat) ⟨⟨preparedOne, (), []⟩, fun _ => none⟩
        releaseTwice = some c ∧
      .act i (issued (.store 0x80 0x80000) (some 0)) ∈ c.shared.history := by
    refine ⟨_, ⟨0, 0, releaseOne, preparedOne⟩, rfl, ?_⟩
    -- Three events of the second release, and four of the first after its store.
    iterate 7 apply List.mem_cons_of_mem
    exact List.mem_cons_self
  obtain ⟨c, i, hrun, hmem⟩ := hstore
  exact ⟨c, i, hrun, hmem, happly c i hrun hmem⟩

end Tvisor.StartupPublication
