/-
# Tvisor.PublishedRecords -- three records that are never torn

The failure record, the CPU slot and the host configuration are one pattern: a claim, fields, a
flag. The failure record has claim and flag in one word; the slot's flag is the lifecycle word of
its mailbox, which leaves `Offline` last; the host configuration has two flags. Each is an instance
of `PublishOnce.Record`, and each method is walked through once with the rules of that library.
-/
import Tvisor.Lib.PublishOnce
import Tvisor.El2Policy
import Tvisor.FailureRecord
import Tvisor.Pcpu

namespace Tvisor

open Interleave PublishOnce

/-! ## The failure record -/

namespace FailureRecord

theorem field_ne_state (x : Field) : Cell.field x ≠ .state := nofun

def published : Record Cell Call Reply Field where
  claim := .state
  flag := .state
  field := .field
  ready v := v = 2
  arg
    | .record failure => some failure.get
    | .snapshot => none
  value
    | .snapshot (some failure) => some failure.get
    | _ => none
  verdict _ := none
  field_injective _ _ h := Cell.field.inj h
  field_ne_claim := field_ne_state
  field_ne_flag := field_ne_state

theorem record_along (failure : Failure) :
    (record failure).Along (published.Orderly · (some failure.get))
      (fun _ => published.Owed .done) [] := by
  have howed : ∀ past, published.Owed .done past := fun _ => ⟨nofun, nofun, nofun⟩
  intro success
  refine ⟨.tryClaim Nat.one_ne_zero fun _ => show ¬ 1 = 2 by decide, ?_⟩
  cases success with
  | false => exact howed _
  | true =>
    refine published.fill [.kind, .syndrome, .pc, .address] rfl (by decide)
      ⟨_, List.mem_cons_self, rfl, rfl⟩ ?_ (by simp) (fun x => .inl (by cases x <;> simp)) ?_
    · rintro ⟨v, hv, hmem | ⟨e, hmem⟩⟩
      · cases List.mem_singleton.mp hmem
      · cases List.mem_singleton.mp hmem
        cases hv
    · exact fun past hclaimed hfull _ =>
        ⟨.flag rfl rfl hclaimed hfull (fun _ => by decide), howed _⟩

theorem snapshot_along :
    snapshot.Along (published.Orderly · none) (fun r => published.Owed (.snapshot r)) [] := by
  refine fun v => ⟨.load nofun, ?_⟩
  show Prog.Along _ _ (ite _ _ _) _
  split_ifs with hv
  · exact ⟨nofun, nofun, nofun⟩
  · have hsaw : published.Saw [.load .state v] := ⟨v, not_not.mp hv, List.mem_cons_self⟩
    refine Record.load_field Field.kind hsaw fun kind hsaw => ?_
    refine Record.load_field Field.syndrome hsaw fun syndrome hsaw => ?_
    refine Record.load_field Field.pc hsaw fun pc hsaw => ?_
    refine Record.load_field Field.address hsaw fun address hsaw => ⟨fun w hw => ?_, nofun, nofun⟩
    cases hw
    refine ⟨hsaw, fun x => ?_⟩
    cases x <;> simp [published, Failure.get]

theorem code_along (call : Call) :
    (code call).Along (published.Orderly · (published.arg call)) published.Owed [] := by
  cases call with
  | record failure => exact (record_along failure).bind fun _ _ h => h
  | snapshot => exact snapshot_along.bind fun _ _ h => h

end FailureRecord

/-! ## The host configuration -/

namespace El2Policy

theorem config_ne_claimed (x : Field) : Cell.config x ≠ .claimed := nofun

theorem config_ne_ready (x : Field) : Cell.config x ≠ .ready := nofun

def published : Record Cell Call Reply Field where
  claim := .claimed
  flag := .ready
  field := .config
  ready v := v ≠ 0
  arg
    | .publish policy => some policy.config.get
    | .get => none
  value
    | .config (some config) => some config.get
    | _ => none
  verdict
    | .published (.ok _) => some true
    | .published (.error _) => some false
    | .config _ => none
  field_injective _ _ h := Cell.config.inj h
  field_ne_claim := config_ne_claimed
  field_ne_flag := config_ne_ready

theorem publish_along (policy : HostTranslation) :
    (publish policy).run.Along (published.Orderly · (some policy.config.get))
      (fun r => published.Owed (.published r)) [] := by
  refine fun old => ⟨.swapClaim Nat.one_ne_zero nofun, ?_⟩
  show Prog.Along _ _ (ExceptT.run (ite _ _ _)) _
  split_ifs with hold
  · refine ⟨nofun, nofun, fun _ => .inl ?_⟩
    rintro ⟨a, ha, hclaim⟩
    rw [List.mem_singleton.mp ha] at hclaim
    exact hold hclaim.2
  · refine published.fill [.mair, .tcr, .root, .sctlr] rfl (by decide)
      ⟨_, List.mem_cons_self, rfl, not_not.mp hold⟩ ?_ (by simp)
      (fun x => .inl (by cases x <;> simp)) ?_
    · rintro ⟨v, hv, hmem | ⟨e, hmem⟩⟩ <;> cases List.mem_singleton.mp hmem
    · refine fun past hclaimed hfull _ => ⟨.flag rfl Nat.one_ne_zero hclaimed hfull nofun, ?_⟩
      exact ⟨nofun, fun _ => hclaimed.mono (List.subset_cons_self _ _), nofun⟩

theorem get_along :
    get.Along (published.Orderly · none) (fun r => published.Owed (.config r)) [] := by
  refine fun v => ⟨.load nofun, ?_⟩
  show Prog.Along _ _ (ite _ _ _) _
  split_ifs with hv
  · exact ⟨nofun, nofun, nofun⟩
  · have hsaw : published.Saw [.load .ready v] := ⟨v, hv, List.mem_cons_self⟩
    refine Record.load_field Field.mair hsaw fun mair hsaw => ?_
    refine Record.load_field Field.tcr hsaw fun tcr hsaw => ?_
    refine Record.load_field Field.root hsaw fun root hsaw => ?_
    refine Record.load_field Field.sctlr hsaw fun sctlr hsaw => ⟨fun w hw => ?_, nofun, nofun⟩
    cases hw
    refine ⟨hsaw, fun x => ?_⟩
    cases x <;> simp [published, HostEl2Config.get]

theorem code_along (call : Call) :
    (code call).Along (published.Orderly · (published.arg call)) published.Owed [] := by
  cases call with
  | publish policy => exact (publish_along policy).bind fun _ _ h => h
  | get => exact get_along.bind fun _ _ h => h

end El2Policy

/-! ## The CPU slot -/

namespace Pcpu

open Fallible

/-- The fields of the context that never change after preparation. -/
inductive Frozen where
  | logicalId
  | affinity
  | stackBottom
  | stackTop

def Frozen.cell : Frozen → Cell
  | logicalId => .logicalId
  | affinity => .affinity
  | stackBottom => .stackBottom
  | stackTop => .stackTop

def frozen (id affinity : Nat) (stack : StackLayout) : Frozen → Nat
  | .logicalId => id
  | .affinity => affinity
  | .stackBottom => stack.bottom
  | .stackTop => stack.top

def CpuIdentity.get (identity : CpuIdentity) : Frozen → Nat
  | .logicalId => identity.logicalId
  | .affinity => identity.affinity
  | .stackBottom => identity.stackBottom
  | .stackTop => identity.stackTop

def published : Record Cell Call Reply Frozen where
  claim := .claimed
  flag := .mailbox .state
  field := Frozen.cell
  ready v := v ≠ 0
  arg
    | .prepare id affinity stack => some (frozen id affinity stack)
    | .identity => none
  value
    | .identity (.ok (some identity)) => some identity.get
    | _ => none
  verdict
    | .prepared (.ok _) => some true
    | .prepared (.error _) => some false
    | .identity _ => none
  field_injective x y h := by cases x <;> cases y <;> first | rfl | cases h
  field_ne_claim x := by cases x <;> exact nofun
  field_ne_flag x := by cases x <;> exact nofun

theorem isPrepared_run :
    isPrepared.run =
      (Atomic.load (Cell.mailbox .state) >>= fun v =>
        pure (match SecondaryMailbox.CpuState.ofWord v with
          | some s => .ok (s != .offline)
          | none => .error .panicked) : Ops (Except (Stop String) Bool)) := by
  refine congrArg (Prog.load (Cell.mailbox .state)) (funext fun v => ?_)
  rcases v with _ | _ | _ | _ | _ | _ | _ <;> rfl

/-- The fields that nobody else reads are no part of the record. -/
theorem orderly_private {c : Cell} {v : Nat} {past : List (Action fun _ : Cell => Nat)}
    {arg : Option (Frozen → Nat)} (hc : c = .hostSp ∨ c = .activeVcpu ∨ c = .present) :
    published.Orderly past arg (.store c v) := by
  refine .other ?_ ?_ fun x => ?_
  · rcases hc with rfl | rfl | rfl <;> exact nofun
  · rcases hc with rfl | rfl | rfl <;> exact nofun
  · rcases hc with rfl | rfl | rfl <;> cases x <;> exact nofun

theorem prepare_along (id affinity : Nat) (stack : StackLayout) :
    (prepare id affinity stack).run.Along (published.Orderly · (some (frozen id affinity stack)))
      (fun r => published.Owed (.prepared r)) [] := by
  unfold prepare
  split
  · -- Bad arguments are refused before the claim is touched.
    exact ⟨nofun, nofun, fun _ => .inl fun ⟨a, ha, _⟩ => by cases ha⟩
  refine fun old => ⟨.swapClaim Nat.one_ne_zero nofun, ?_⟩
  show Prog.Along _ _ (ExceptT.run (ite _ _ _)) _
  split_ifs with hold
  · refine ⟨nofun, nofun, fun _ => .inl ?_⟩
    rintro ⟨a, ha, hclaim⟩
    rw [List.mem_singleton.mp ha] at hclaim
    exact hold hclaim.2
  · refine ⟨orderly_private (.inl rfl), orderly_private (.inr (.inl rfl)), ?_⟩
    refine published.fill [.logicalId, .affinity, .stackBottom, .stackTop] rfl (by simp)
      ⟨.swap .claimed 1 old, by simp, rfl, not_not.mp hold⟩ ?_ ?_
      (fun x => .inl (by cases x <;> simp)) ?_
    · rintro ⟨v, hv, hmem | ⟨e, hmem⟩⟩ <;> simp [published] at hmem
    · intro x _ v hmem
      cases x <;> simp [published, Frozen.cell] at hmem
    · refine fun past hclaimed hfull hdown => ⟨orderly_private (.inr (.inr rfl)), fun success => ?_⟩
      have hsub := List.subset_cons_self (.store Cell.present 1) past
      refine ⟨.tryFlag Nat.one_ne_zero (hclaimed.mono hsub) (hfull.mono hsub) ?_ nofun ?_, ?_⟩
      · exact fun hraised => hdown (hraised.of_store nofun)
      · exact fun u hu => not_not.mp hu
      · cases success with
        | true =>
          exact ⟨nofun, fun _ => (hclaimed.mono hsub).mono (List.subset_cons_self _ _), nofun⟩
        | false => exact ⟨nofun, nofun, fun _ => .inr ⟨nofun, 0, 1, List.mem_cons_self⟩⟩

theorem isPrepared_along :
    isPrepared.run.Along (published.Orderly · none)
      (fun r past => r = .ok true → published.Saw past) [] := by
  rw [isPrepared_run]
  refine fun v => ⟨.load fun x hx => absurd hx.symm (published.field_ne_flag x), fun hr => ?_⟩
  refine ⟨v, ?_, List.mem_cons_self⟩
  rintro rfl
  cases hr

theorem identity_along (address : Nat) :
    (identity address).run.Along (published.Orderly · none)
      (fun r => published.Owed (.identity r)) [] := by
  refine isPrepared_along.run_bind (fun b past hsaw => ?_) fun _ _ _ => ⟨nofun, nofun, nofun⟩
  cases b with
  | false => exact ⟨nofun, nofun, nofun⟩
  | true =>
    refine Record.load_field Frozen.logicalId (hsaw rfl) fun id hsaw => ?_
    refine Record.load_field Frozen.affinity hsaw fun affinity hsaw => ?_
    refine Record.load_field Frozen.stackBottom hsaw fun bottom hsaw => ?_
    refine Record.load_field Frozen.stackTop hsaw fun top hsaw => ⟨fun w hw => ?_, nofun, nofun⟩
    cases hw
    refine ⟨hsaw, fun x => ?_⟩
    cases x <;> simp [published, Frozen.cell, CpuIdentity.get]

theorem code_along (address : Nat) (call : Call) :
    (code address call).Along (published.Orderly · (published.arg call)) published.Owed [] := by
  cases call with
  | prepare id affinity stack => exact (prepare_along id affinity stack).bind fun _ _ h => h
  | identity => exact (identity_along address).bind fun _ _ h => h

end Pcpu

/-! ## The theorem -/

variable {Tid : Type} [DecidableEq Tid]

/-- The three records are never torn: in every interleaving of any number of writers and readers,
with writers that may stop anywhere, one writer at most wins, every value read is the winner's
whole argument, all values read agree, and a publication reports success exactly if it won. -/
theorem records_never_torn :
    (∀ c, Reach (FailureRecord.system Tid) (FailureRecord.initial Tid) c →
      FailureRecord.published.Untorn c.shared.history) ∧
    (∀ address c, Reach (Pcpu.system Tid address) (Pcpu.initial Tid) c →
      Pcpu.published.Untorn c.shared.history) ∧
    (∀ c, Reach (El2Policy.system Tid) (El2Policy.initial Tid) c →
      El2Policy.published.Untorn c.shared.history) := by
  refine ⟨fun c hreach => ?_, fun address c hreach => ?_, fun c hreach => ?_⟩
  · have hdown : ¬ FailureRecord.published.ready 0 :=
      fun h => absurd (show 0 = 2 from h) (by decide)
    exact Record.untorn .kind FailureRecord.code_along hdown hreach
  · have hdown : ¬ Pcpu.published.ready 0 := fun h => h rfl
    exact Record.untorn .logicalId (Pcpu.code_along address) hdown hreach
  · have hdown : ¬ El2Policy.published.ready 0 := fun h => h rfl
    exact Record.untorn .mair El2Policy.code_along hdown hreach

/-- Thread 0 makes the first call, which takes this many steps; then thread 1 the second. -/
def oneAfterOther {Call : Type} (first second : Call) (steps steps' : Nat) :
    List (Move Nat Call) :=
  .start 0 first :: List.replicate steps (.next 0) ++
    .start 1 second :: List.replicate steps' (.next 1)

/-- In each record a writer finishes and a reader then gets what it wrote. -/
theorem records_never_torn_readBack :
    (∃ c, Config.run (FailureRecord.system Nat) ⟨FailureRecord.initial Nat, fun _ => none⟩
        (oneAfterOther (.record ⟨1, 2, 3, 4⟩) .snapshot 7 6) = some c ∧
      FailureRecord.published.Untorn c.shared.history ∧
      ∃ i, .ret i (.snapshot (some ⟨1, 2, 3, 4⟩)) ∈ c.shared.history) ∧
    (∃ c, Config.run (Pcpu.system Nat 64) ⟨Pcpu.initial Nat, fun _ => none⟩
        (oneAfterOther (.prepare 1 1 ⟨4096, 8192, 73728⟩) .identity 10 6) = some c ∧
      Pcpu.published.Untorn c.shared.history ∧
      ∃ i, .ret i (.identity (.ok (some ⟨1, 1, 8192, 73728, 64⟩))) ∈ c.shared.history) ∧
    ∃ policy c, El2Policy.HostTranslation.new 0x4100000 4 = .ok policy ∧
      Config.run (El2Policy.system Nat) ⟨El2Policy.initial Nat, fun _ => none⟩
        (oneAfterOther (.publish policy) .get 7 6) = some c ∧
      El2Policy.published.Untorn c.shared.history ∧
      ∃ i, .ret i (.config (some policy.config)) ∈ c.shared.history := by
  obtain ⟨hfailure, hslot, hconfig⟩ := @records_never_torn Nat _
  refine ⟨?_, ?_, ?_⟩
  · have happly : ∀ c, Config.run (FailureRecord.system Nat)
        ⟨FailureRecord.initial Nat, fun _ => none⟩
        (oneAfterOther (.record ⟨1, 2, 3, 4⟩) .snapshot 7 6) = some c →
        FailureRecord.published.Untorn c.shared.history :=
      fun c hrun => hfailure c (Config.run_steps hrun)
    exact ⟨_, rfl, happly _ rfl, _, List.mem_cons_self⟩
  · have happly : ∀ c, Config.run (Pcpu.system Nat 64) ⟨Pcpu.initial Nat, fun _ => none⟩
        (oneAfterOther (.prepare 1 1 ⟨4096, 8192, 73728⟩) .identity 10 6) = some c →
        Pcpu.published.Untorn c.shared.history :=
      fun c hrun => hslot 64 c (Config.run_steps hrun)
    exact ⟨_, rfl, happly _ rfl, _, List.mem_cons_self⟩
  · have happly : ∀ policy c, Config.run (El2Policy.system Nat)
        ⟨El2Policy.initial Nat, fun _ => none⟩
        (oneAfterOther (.publish policy) .get 7 6) = some c →
        El2Policy.published.Untorn c.shared.history :=
      fun policy c hrun => hconfig c (Config.run_steps hrun)
    exact ⟨_, _, rfl, rfl, happly _ _ rfl, _, List.mem_cons_self⟩

end Tvisor
