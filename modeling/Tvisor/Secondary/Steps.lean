/-
# Tvisor.Secondary.Steps -- what the boot does to the shared words

Every procedure of the boot but three is lawful: it leaves the boot word alone, sets bits of the
mask and moves lifecycles along their edges. Views, checkpoints and waits only load, and the last
look leaves the loads that it stands for. The three that move the boot word do so along the edges of
`BootEdge`.
-/
import Tvisor.Secondary

namespace Tvisor.Secondary

open Interleave Fallible CpuTopology SecondaryEntry StartupPublication SecondaryBoot
open SecondaryMailbox (CpuState)
open StartupResources (Resources)

variable (p : Platform) (plan : Plan)

section Loads

variable {ε : Type} {ok : List Act → Act → Prop} {past : List Act}

/-! ## Procedures that only load -/

/-- Loads, whatever came before. -/
abbrev Loading : List Act → Act → Prop := fun _ => Action.IsLoad

theorem extends_past {A : Type} {x : Ops A} (h : x.Only Action.IsLoad) :
    x.Along Loading (fun _ past' => past <:+ past') past := by
  refine (Prog.Along.ran h fun _ _ ha => ha).post ?_
  rintro r _ ⟨ops, _, rfl⟩
  exact List.suffix_append _ _

theorem ready_loads (slot g : Nat) : (ready slot g).Only Action.IsLoad :=
  .embed ((SecondaryMailbox.observeReady_loads g).mono fun _ h => h.embed)

theorem hostConfig_loads : hostConfig.Only Action.IsLoad := by
  have hload : ∀ c, (El2Policy.load c).Only (fun a => (a.embed Cell.config : Act).IsLoad) :=
    fun c v => ⟨⟨.config c, v, rfl⟩, trivial⟩
  refine .embed ((hload .ready).bind fun r _ => ?_)
  split
  · trivial
  · exact (hload _).bind fun _ _ => (hload _).bind fun _ _ => (hload _).bind fun _ _ =>
      (hload _).bind fun _ _ => trivial

theorem slotIdentity_loads (address : Nat) : (Pcpu.identity address).run.Only Action.IsLoad := by
  have hload : ∀ c, (Pcpu.load c).Only Action.IsLoad :=
    fun c v => ⟨⟨c, v, rfl⟩, trivial⟩
  have hlifecycle : (Pcpu.mailbox (fun _ => "") SecondaryMailbox.lifecycle).run.Only
      Action.IsLoad := by
    refine Prog.Forall.bind (.embed (SecondaryMailbox.lifecycle_loads.mono ?_)) fun r _ => ?_
    · rintro _ ⟨c, v, rfl⟩
      exact ⟨.mailbox c, v, rfl⟩
    · split <;> trivial
  have hprepared : Pcpu.isPrepared.run.Only Action.IsLoad :=
    .andThen hlifecycle fun _ => trivial
  refine .andThen hprepared fun b => ?_
  split
  · trivial
  · exact .liftThen (hload _) fun _ => .liftThen (hload _) fun _ => .liftThen (hload _) fun _ =>
      .liftThen (hload _) fun _ => trivial

theorem identity_loads (id : Nat) :
    (identity p id : Attempt ε _).run.Only Action.IsLoad := by
  have hslot : ((Pcpu.identity (p.slotAddress id)).run.embed (.slot id) :
      Ops (Except (Stop String) (Option Pcpu.CpuIdentity))).Only Action.IsLoad := by
    refine .embed ((slotIdentity_loads _).mono ?_)
    rintro _ ⟨c, v, rfl⟩
    exact ⟨.slot id c, v, rfl⟩
  refine .liftThen hslot fun r => ?_
  split <;> trivial

theorem startup_along (id : Nat) :
    (startup p id : Attempt ε _).run.Along Loading
      (fun r past' => (∀ record, r = .ok (some record) → record.slot = id) ∧ past <:+ past')
      past := by
  unfold startup
  split
  · exact ⟨nofun, List.suffix_rfl⟩
  refine .lifted ((extends_past hostConfig_loads).bind fun config past₁ h₁ => ?_)
  split
  · exact ⟨nofun, h₁⟩
  refine .lifted ((extends_past (ready_loads id generation)).bind fun b past₂ h₂ => ?_)
  replace h₂ := h₁.trans h₂
  split
  · exact ⟨nofun, h₂⟩
  refine .run_bind (extends_past (identity_loads p id)) (fun identity past₃ h₃ => ?_)
    fun _ _ h₃ => ⟨nofun, h₂.trans h₃⟩
  split
  · exact ⟨nofun, h₂.trans h₃⟩
  · refine ⟨?_, h₂.trans h₃⟩
    rintro _ ⟨⟩
    rfl

theorem startup_loads (id : Nat) :
    (startup p id : Attempt ε _).run.Only Action.IsLoad :=
  (startup_along p id).only fun _ _ h => h

theorem bootStatus_along {ε : Type} (hok : ∀ v, ok past (.load .boot v)) :
    (bootStatus : Attempt ε _).run.Along ok
      (fun r past' => ∀ s, r = .ok s → past' = .load .boot s.toWord :: past) past := by
  have hload : (load .boot).Along ok (fun v past' => past' = .load .boot v :: past) past :=
    fun v => ⟨hok v, rfl⟩
  refine .lifted (hload.bind fun v past' hpast => ?_)
  split
  · rename_i s hs
    rintro _ ⟨⟩
    rw [BootStatus.toWord_of_ofWord hs, hpast]
  · exact nofun

theorem hasFatal_along (hok : ∀ v, ok past (.load .fatal v)) :
    hasFatal.Along ok
      (fun b past' => ∃ v, b = (v != 0) ∧ past' = .load .fatal v :: past) past :=
  fun v => ⟨hok v, v, rfl, rfl⟩

theorem bootStatus_loads : (bootStatus : Attempt ε _).run.Only Action.IsLoad := by
  refine .liftThen (load_loads .boot) fun _ => ?_
  split <;> trivial

theorem hasFatal_loads : hasFatal.Only Action.IsLoad :=
  (load_loads .fatal).bind fun _ _ => trivial

theorem startupTablesFrozen_loads : startupTablesFrozen.Only Action.IsLoad :=
  (load_loads .frozen).bind fun _ _ => trivial

/-! ## The last look -/

theorem hasParked_along (slot g : Nat) :
    (hasParked slot g : Attempt ε _).run.Along Loading (fun r past' => r = .ok true →
      past' = .load (lifecycleCell slot) CpuState.parked.toWord ::
        .load (.slot slot (.mailbox .ready)) g :: past) past := by
  have hmailbox : (mailbox slot (SecondaryMailbox.hasParked g)).Along Loading
      (fun r past' => r = .ok true →
        past' = .load (lifecycleCell slot) CpuState.parked.toWord ::
          .load (.slot slot (.mailbox .ready)) g :: past) past := by
    refine .embed ((SecondaryMailbox.hasParked_along (fun _ _ h => h.embed) g).post ?_)
    intro r new h hr
    rw [h hr]
    rfl
  refine .lifted (hmailbox.bind fun r past' h => ?_)
  rcases r with e | b
  · exact nofun
  · rintro ⟨⟩
    exact h rfl

theorem verifyCheckpoint_along (record : StartupView) (id g : Nat) :
    (verifyCheckpoint record id g).run.Along Loading (fun r past' => ∀ u, r = .ok u →
      past' = .load (.failures record.slot) 0 ::
        .load (lifecycleCell record.slot) CpuState.parked.toWord ::
        .load (.slot record.slot (.mailbox .ready)) g :: past) past := by
  unfold verifyCheckpoint
  split
  · exact nofun
  refine .run_bind (hasParked_along record.slot g) (fun b past' h => ?_) fun _ _ _ => nofun
  rcases b with _ | _
  · exact nofun
  obtain rfl := h rfl
  refine .lifted fun failures => ⟨⟨_, failures, rfl⟩, ?_⟩
  show Prog.Along _ _ (ExceptT.run (if failures ≠ 0 then _ else _)) _
  split
  · exact nofun
  · rename_i hfailures
    obtain rfl : failures = 0 := not_not.mp hfailures
    exact fun _ _ => rfl

theorem verifyCheckpoint_loads (record : StartupView) (id g : Nat) :
    (verifyCheckpoint record id g).run.Only Action.IsLoad :=
  (verifyCheckpoint_along record id g).only fun _ _ h => h

/-- A CPU was seen as the last look wants it; newest first. -/
def Observed (id : Nat) (past : List Act) : Prop :=
  [.load (.failures id) 0, .load (lifecycleCell id) CpuState.parked.toWord,
    .load (.slot id (.mailbox .ready)) generation].Sublist past

theorem verifyRecords_along (required : Nat) (ids : List Nat) (seen : Nat)
    (h : ∀ id, seen.testBit id = true → Observed id past) :
    (verifyRecords required generation (startup p) ids seen).run.Along Loading
      (fun r past' => ∀ seen', r = .ok seen' →
        ∀ id, seen'.testBit id = true → Observed id past') past := by
  induction ids generalizing seen past with
  | nil =>
    rintro _ ⟨⟩
    exact h
  | cons id ids ih =>
    refine .run_bind (startup_along p id) (fun view past' hview => ?_) fun _ _ _ => nofun
    obtain ⟨hslot, hsuffix⟩ := hview
    have hold : ∀ k, seen.testBit k = true → Observed k past' :=
      fun k hk => (h k hk).trans hsuffix.sublist
    rcases view with _ | record
    · exact ih seen hold
    obtain rfl : record.slot = id := hslot record rfl
    refine .run_bind (verifyCheckpoint_along record _ _) (fun u past'' hcheck => ?_)
      fun _ _ _ => nofun
    split
    · exact nofun
    obtain rfl := hcheck u rfl
    refine ih _ fun k hk => ?_
    rw [Nat.testBit_or, Nat.one_shiftLeft, Nat.testBit_two_pow, Bool.or_eq_true,
      decide_eq_true_eq] at hk
    rcases hk with hk | rfl
    · exact (hold k hk).trans (.cons _ (.cons _ (List.sublist_cons_self _ _)))
    · exact .cons_cons _ (.cons_cons _ (.cons_cons _ (List.nil_sublist _)))

theorem verifyAllParked_along (required : Nat) :
    (verifyAllParked p required).run.Along Loading
      (fun r past' => ∀ u, r = .ok u → .load .attempted required ∈ past' ∧
        .load .fatal 0 ∈ past' ∧ ∀ id, required.testBit id = true → Observed id past') [] := by
  refine .lifted fun attempted => ⟨⟨_, attempted, rfl⟩, ?_⟩
  show Prog.Along _ _ (ExceptT.run (if attempted ≠ required then _ else _)) _
  split
  · exact nofun
  rename_i hattempted
  obtain rfl : attempted = required := not_not.mp hattempted
  refine .lifted ((hasFatal_along fun v => ⟨_, v, rfl⟩).bind fun fatal past' h => ?_)
  obtain ⟨v, rfl, rfl⟩ := h
  refine .run_bind (bootStatus_along fun v => ⟨_, v, rfl⟩) (fun s past' h => ?_)
    fun _ _ _ => nofun
  obtain rfl := h s rfl
  split
  · exact nofun
  split
  · exact nofun
  rename_i hfatal
  obtain rfl : v = 0 := by simpa using hfatal
  split
  · exact nofun
  have hloads := fun ids => (verifyRecords_along p attempted ids 0 (by simp)).only fun _ _ h => h
  refine .run_bind (.and (verifyRecords_along p attempted _ 0 (by simp)) (extends_past (hloads _)))
    (fun seen past' h => ?_) fun _ _ _ => nofun
  obtain ⟨hseen, hsuffix⟩ := h
  split
  · exact nofun
  rename_i hsame
  obtain rfl : seen = attempted := not_not.mp hsame
  exact fun _ _ => ⟨hsuffix.subset (by simp), hsuffix.subset (by simp), hseen _ rfl⟩

theorem verifyAllParked_loads (required : Nat) :
    (verifyAllParked p required).run.Only Action.IsLoad :=
  (verifyAllParked_along p required).only fun _ _ h => h

/-! ## Waits -/

section Waits

/- A wait only loads wherever it runs, if what only loads on the shared memory does so there. -/
variable {L : Type} {W : L → Type} [MonadLiftT Ops (Prog W)] {elapsed : Nat → Prog W Nat}
  (hshared : ∀ {A : Type} {x : Ops A}, x.Only Action.IsLoad →
    (liftM x : Prog W A).Only Action.IsLoad)
  (helapsed : ∀ n, (elapsed n).Only Action.IsLoad)

include hshared

theorem concludeWait_loads (record : StartupView) (id g : Nat) (result : Except WaitError Unit) :
    (concludeWait record id g result : ExceptT _ (Prog W) _).run.Only Action.IsLoad := by
  refine .liftThen (hshared hasFatal_loads) fun fatal => ?_
  split
  · trivial
  split
  · trivial
  refine .andThen (hshared bootStatus_loads) fun status => ?_
  split
  · trivial
  · exact hshared (verifyCheckpoint_loads _ _ _)

include helapsed

theorem counter_loads (ticks n : Nat) : (counter elapsed ticks n).Only Action.IsLoad := by
  refine (hshared hasFatal_loads).bind fun fatal _ => ?_
  split
  · trivial
  · exact (helapsed n).bind fun _ _ => trivial

theorem pollParked_loads (slot start ticks polls n : Nat) (saw : Bool) :
    (pollParked elapsed slot start ticks polls n saw : ExceptT (Halt ε) _ _).run.Only
      Action.IsLoad := by
  induction polls generalizing n saw with
  | zero => trivial
  | succ polls ih =>
    refine .liftThen (counter_loads hshared helapsed _ _) fun ⟨now, fatal⟩ => ?_
    show Prog.Forall _ _ (ExceptT.run (if _ then _ else _))
    split
    · trivial
    refine .liftThen (hshared (mailbox_loads SecondaryMailbox.lifecycle_loads)) fun r => ?_
    split
    · trivial
    · trivial
    · refine .liftThen (counter_loads hshared helapsed _ _) fun ⟨now', fatal'⟩ => ?_
      show Prog.Forall _ _ (ExceptT.run (if _ then _ else _))
      split <;> trivial
    · exact ih _ _

theorem waitForParked_loads (record : StartupView) (id g ticks maxPolls : Nat) :
    (waitForParked elapsed record id g ticks maxPolls).run.Only Action.IsLoad := by
  refine .andThen (hshared bootStatus_loads) fun status => ?_
  split
  · trivial
  split
  · trivial
  refine .andThen ?_ fun ⟨result, saw⟩ => ?_
  · refine .liftThen (hshared (mailbox_loads (SecondaryMailbox.check_loads g))) fun r => ?_
    split
    · trivial
    · trivial
    split
    · trivial
    · exact pollParked_loads hshared helapsed _ _ _ _ _ _
  · show Prog.Forall _ _ (ExceptT.run (if saw then _ else _))
    split
    · trivial
    · exact concludeWait_loads hshared _ _ _ _

end Waits

theorem waitForSecondary_loads (id ticks : Nat) :
    (waitForSecondary p plan id ticks).run.Only Action.IsLoad := by
  refine .andThen (startup_loads p id) fun view => ?_
  split
  · trivial
  · refine waitForParked_loads (fun h => h) ?_ _ _ _ _ _
    exact fun _ => trivial

end Loads

/-! ## Lawful procedures -/

section Lawful

variable {ε ε' A : Type}

theorem mapErr_forall {may : Act → Prop} {f : ε → ε'} {x : Attempt ε A}
    (h : x.run.Only may) : (mapErr f x).run.Only may := by
  refine .liftThen h fun r => ?_
  split <;> trivial

theorem ofExcept_forall {may : Act → Prop} (r : Except ε A) : (ofExcept r).run.Only may := by
  rcases r with e | a <;> trivial

theorem config_lawful (x : El2Policy.Ops A) : (x.embed Cell.config : Ops A).Only Lawful := by
  refine .embed ((Prog.Forall.any x).mono fun a _ => ?_)
  refine lawful_of_ne ?_ ?_ fun slot => ?_ <;> rw [Action.embed_loc] <;> exact Cell.noConfusion

theorem publishStartup_lawful (id : Nat) (config : El2Policy.HostEl2Config) :
    (publishStartup p id config).run.Only Lawful := by
  refine .andThen (lawful_of_loads (identity_loads p id)) fun identity => ?_
  split
  · trivial
  split
  · trivial
  · exact orElse_forall (mailbox_lawful (SecondaryMailbox.publish_orderly _))

theorem startupResources_lawful (cpus : List CpuDescriptor)
    (id : Nat) : (startupResources p plan cpus id).run.Only Lawful := by
  unfold startupResources
  split
  · trivial
  refine .andThen (lawful_of_loads (identity_loads p id)) fun identity => ?_
  split
  · trivial
  · exact ofExcept_forall _

theorem prepareCpus_lawful (cpus : List CpuDescriptor)
    (required : Nat) (config : El2Policy.HostEl2Config) (ids : List Nat) :
    (prepareCpus p plan cpus required config ids).run.Only Lawful := by
  induction ids with
  | nil => trivial
  | cons id ids ih =>
    unfold prepareCpus
    split
    · exact ih
    split
    · trivial
    split
    · trivial
    refine .andThen (startupResources_lawful p plan cpus id) fun resources => ?_
    refine .andThen (publishStartup_lawful p id config) fun _ => ?_
    exact .andThen ih fun _ => trivial

theorem prepareAllCpus_lawful (required : Nat) :
    (prepareAllCpus p plan required).run.Only Lawful := by
  refine .liftThen (config_lawful _) fun r => ?_
  split
  · trivial
  refine .liftThen (config_lawful _) fun config => ?_
  split
  · trivial
  split
  · trivial
  · exact prepareCpus_lawful _ _ _ _ _ _

theorem validateAndFreeze_lawful : (validateAndFreeze plan).run.Only Lawful := by
  unfold validateAndFreeze
  split
  · trivial
  have hop : (compareExchange .frozen 0 1).Only Lawful :=
    fun b => ⟨lawful_of_ne Cell.noConfusion Cell.noConfusion nofun, trivial⟩
  refine .liftThen hop fun b => ?_
  split <;> trivial

theorem validatePublication_loads (cpus : List CpuDescriptor) (id : Nat) (contract : EntryContract)
    (record : StartupView) (r : Resources) (line configAddress : Nat) :
    (validatePublication cpus id contract record r line configAddress).run.Only Action.IsLoad := by
  unfold validatePublication
  split
  · trivial
  split
  · trivial
  refine .andThen (orElse_forall (mailbox_loads (SecondaryMailbox.state_loads _))) fun s => ?_
  split
  · trivial
  refine .liftThen (ready_loads _ _) fun b => ?_
  split
  · trivial
  split
  · trivial
  split
  · trivial
  split
  · trivial
  split
  · trivial
  · exact ofExcept_forall _

theorem validatePublications_loads (cpus : List CpuDescriptor)
    (contract : EntryContract) (shared : Resources)
    (resources : List (Nat × Resources)) :
    (validatePublications p plan cpus contract shared resources).run.Only Action.IsLoad := by
  induction resources with
  | nil => trivial
  | cons entry rest ih =>
    unfold validatePublications
    split
    · trivial
    refine .andThen (startup_loads p entry.1) fun view => ?_
    split
    · trivial
    · exact .andThen (mapErr_forall (validatePublication_loads _ _ _ _ _ _ _)) fun _ => ih

theorem cleanLines_lawful (line finish : Nat) (outcome : Nat → Option Nat) (rounds address : Nat) :
    (cleanLines line finish outcome rounds address).run.Only Lawful := by
  induction rounds generalizing address with
  | zero =>
    unfold cleanLines
    split <;> trivial
  | succ rounds ih =>
    unfold cleanLines
    split
    · refine .andThen (perform_lawful _ _) fun _ => ?_
      split
      · trivial
      · exact ih _
    · trivial

theorem cleanRange_lawful (start finish line : Nat) (outcome : Nat → Option Nat) :
    (cleanRange start finish line outcome).run.Only Lawful := by
  unfold cleanRange
  split
  · trivial
  · exact cleanLines_lawful _ _ _ _ _

theorem publishSharedStartup_lawful (r : Resources) (line : Nat)
    (outcome : Nat → Nat → Option Nat) : (publishSharedStartup r line outcome).run.Only Lawful := by
  unfold publishSharedStartup
  split
  · trivial
  refine .andThen (ofExcept_forall _) fun _ => ?_
  induction (sharedRegions r).zipIdx with
  | nil => trivial
  | cons entry rest ih => exact .andThen (cleanRange_lawful _ _ _ _) fun _ => ih

theorem publishStacks_lawful (resources : List (Nat × Resources)) :
    (publishStacks plan resources).run.Only Lawful := by
  induction resources with
  | nil => trivial
  | cons entry rest ih =>
    refine .andThen (mapErr_forall ?_) fun _ => ih
    unfold publishCpuStartup
    split
    · trivial
    · exact cleanRange_lawful _ _ _ _

theorem publishAllStartups_lawful (contract : EntryContract) (resources : List (Nat × Resources)) :
    (publishAllStartups p plan contract resources).run.Only Lawful := by
  refine .andThen (lawful_of_loads bootStatus_loads) fun status => ?_
  split
  · trivial
  refine .liftThen (lawful_of_loads startupTablesFrozen_loads) fun frozen => ?_
  split
  · trivial
  split
  · trivial
  · trivial
  refine .andThen (lawful_of_loads (validatePublications_loads _ _ _ _ _ _)) fun _ => ?_
  refine .andThen (mapErr_forall (publishSharedStartup_lawful _ _ _)) fun _ => ?_
  refine .andThen (publishStacks_lawful _ _) fun _ => ?_
  exact .andThen (mapErr_forall (perform_lawful _ _)) fun _ => trivial

theorem verifyCells_lawful (cpus : List CpuDescriptor) (released entry : Nat)
    (readback : Nat → Option Nat) (cells : List Nat) :
    (verifyCells cpus released entry readback cells).run.Only Lawful := by
  induction cells with
  | nil => trivial
  | cons cell cells ih =>
    refine .andThen (mapErr_forall (perform_lawful _ _)) fun value => ?_
    split
    · trivial
    · exact ih

theorem releaseCpus_lawful (cpus : List CpuDescriptor)
    (required : Nat) (contract : EntryContract) (ticks : Nat) (ids : List Nat) :
    (releaseCpus p plan cpus required contract ticks ids).run.Only Lawful := by
  induction ids with
  | nil => trivial
  | cons id ids ih =>
    unfold releaseCpus
    split
    · exact ih
    refine .liftThen (lawful_of_loads hasFatal_loads) fun fatal => ?_
    split
    · trivial
    refine .andThen (lawful_of_loads (startup_loads p id)) fun view => ?_
    split
    · trivial
    refine .andThen (mapErr_forall (releaseSecondary_lawful _ _ _ _ _ _)) fun _ => ?_
    refine .andThen (lawful_of_loads (waitForSecondary_loads p plan id ticks)) fun _ => ?_
    refine .liftThen (load_lawful .attempted) fun attempted => ?_
    refine .andThen ?_ fun _ => ih
    unfold verifyReleaseSet
    split
    · trivial
    · exact verifyCells_lawful _ _ _ _ _

theorem releaseAndWait_lawful (required : Nat) (contract : EntryContract) (ticks : Nat) :
    (releaseAndWait p plan required contract ticks).run.Only Lawful := by
  refine .andThen (lawful_of_loads bootStatus_loads) fun status => ?_
  split
  · trivial
  refine .liftThen (lawful_of_loads startupTablesFrozen_loads) fun frozen => ?_
  split
  · trivial
  split
  · trivial
  · exact releaseCpus_lawful _ _ _ _ _ _ _

/-- An operation of a slot on its context, or an orderly one on its mailbox. -/
def SlotOrderly (a : Action fun _ : Pcpu.Cell => Nat) : Prop :=
  ∀ c, a.loc = .mailbox c →
    ∃ b : SecondaryMailbox.Operation, SecondaryMailbox.Orderly b ∧ a = b.embed .mailbox

theorem lawful_of_slotOrderly {id : Nat} {a : Action fun _ : Pcpu.Cell => Nat}
    (h : SlotOrderly a) : Lawful (a.embed (Cell.slot id)) := by
  by_cases hmailbox : ∃ c, a.loc = .mailbox c
  · obtain ⟨c, hc⟩ := hmailbox
    obtain ⟨b, hb, rfl⟩ := h c hc
    have hlawful : Lawful (b.embed fun c => Cell.slot id (.mailbox c)) := lawful_of_orderly hb
    cases b <;> exact hlawful
  · refine lawful_of_ne ?_ ?_ fun slot => ?_
    · rw [Action.embed_loc]
      exact Cell.noConfusion
    · rw [Action.embed_loc]
      exact Cell.noConfusion
    · rw [Action.embed_loc]
      intro heq
      exact hmailbox ⟨.state, (Cell.slot.inj heq).2⟩

theorem slotMailbox_orderly {f : SecondaryMailbox.ProtocolError → String}
    {x : SecondaryMailbox.Attempt A} (h : x.run.Only SecondaryMailbox.Orderly) :
    (Pcpu.mailbox f x).run.Only SlotOrderly := by
  refine Prog.Forall.bind (.embed (h.mono fun b hb c _ => ⟨b, hb, rfl⟩)) fun r _ => ?_
  split <;> trivial

theorem prepare_orderly (id affinity : Nat) (stack : Pcpu.StackLayout) :
    (Pcpu.prepare id affinity stack).run.Only SlotOrderly := by
  have hstore : ∀ {c : Pcpu.Cell} {v : Nat}, (∀ c', c ≠ .mailbox c') →
      (Pcpu.store c v).Only SlotOrderly :=
    fun hc => ⟨fun c' heq => absurd heq (hc c'), trivial⟩
  have hswap : (Pcpu.swap .claimed 1).Only SlotOrderly :=
    fun _ => ⟨nofun, trivial⟩
  unfold Pcpu.prepare
  split
  · trivial
  refine .liftThen hswap fun old => ?_
  split
  · trivial
  refine .liftThen (hstore nofun) fun _ => .liftThen (hstore nofun) fun _ =>
    .liftThen (hstore nofun) fun _ => .liftThen (hstore nofun) fun _ =>
    .liftThen (hstore nofun) fun _ => .liftThen (hstore nofun) fun _ =>
    .liftThen (hstore nofun) fun _ => ?_
  exact slotMailbox_orderly SecondaryMailbox.markPrepared_orderly

theorem slotCode_lawful (id : Nat) (call : Pcpu.Call) :
    (slotCode p id call).Only Lawful := by
  cases call with
  | prepare id' affinity stack =>
    refine .embed (Prog.Forall.mono ?_ fun _ => lawful_of_slotOrderly)
    exact (prepare_orderly id' affinity stack).bind fun _ _ => trivial
  | identity =>
    refine .embed (Prog.Forall.mono ((slotIdentity_loads _).bind fun _ _ => trivial) ?_)
    rintro _ ⟨c, v, rfl⟩
    exact lawful_of_read trivial

end Lawful

end Tvisor.Secondary
