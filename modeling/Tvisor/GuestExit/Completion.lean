/-
# Tvisor.GuestExit.Completion -- an acknowledged interrupt is completed once

The token of an interrupt goes through three functions with many ways out. `handleIrq` and
`currentIrq` run among any number of other calls on the same memory: further handlers, the methods
of all channels, mailboxes and of the update state, the lifecycle snapshot, and anybody who writes a
register or a word outside those. In every interleaving from boot on, each handler completes its
token once; in particular it does not panic before. What `handle_irq` has for the guest goes to the
vCPU's saved copy, where it does not replace an interrupt in flight; no handler writes a list
register.
-/
import Tvisor.GuestExit.Irq
import Tvisor.HostManagement.Dispatch

namespace Tvisor.GuestExit

open Interleave Interleave.Prog Fallible HostManagement
open Gicv2 hiding Ops

/-! ## Interrupts in flight -/

/-- The list registers that are pending or active keep their content. -/
structure Keeps (before after : VirtualGicV2State) : Prop where
  timer : before.timerInFlight = true → after.timerLr = before.timerLr
  uart : before.uartInFlight = true → after.uartLr = before.uartLr

theorem Keeps.refl (gic : VirtualGicV2State) : Keeps gic gic := ⟨fun _ => rfl, fun _ => rfl⟩

theorem Keeps.trans {a b c : VirtualGicV2State} (hab : Keeps a b) (hbc : Keeps b c) :
    Keeps a c := by
  constructor
  · intro h
    have hb : b.timerInFlight = true := (congrArg inFlight (hab.timer h)).trans h
    rw [hbc.timer hb, hab.timer h]
  · intro h
    have hb : b.uartInFlight = true := (congrArg inFlight (hab.uart h)).trans h
    rw [hbc.uart hb, hab.uart h]

theorem keeps_queueTimerPpi (gic : VirtualGicV2State) :
    Keeps gic (state ((queueTimerPpi virtualTimerPpi).run gic)) := by
  rw [queueTimerPpi_run]
  split
  · exact Keeps.refl gic
  · rename_i hfree
    exact ⟨fun h => absurd h hfree, fun _ => rfl⟩

theorem keeps_queueUartSpi (gic : VirtualGicV2State) :
    Keeps gic (state ((queueUartSpi virtualPl011Irq).run gic)) := by
  rw [queueUartSpi_run]
  split
  · exact Keeps.refl gic
  · rename_i hfree
    exact ⟨fun _ => rfl, fun h => absurd h hfree⟩

/-- The saved copy that a handler returns keeps what was in flight. -/
def CopyKept (gic : VirtualGicV2State) (r : Except Fault (Interrupts × Except ExitError Unit)) :
    Prop :=
  ∀ guest result, r = .ok (guest, result) → Keeps gic guest.gic

/-- The timer interrupt of a guest ends with its list register in flight. -/
def TimerQueued (before after : VirtualGicV2State) : Prop :=
  after.timerInFlight = true ∧ (before.timerInFlight = true → after = before)

theorem timerQueued (gic : VirtualGicV2State) :
    TimerQueued gic (state ((queueTimerPpi virtualTimerPpi).run gic)) := by
  rw [queueTimerPpi_run]
  cases h : gic.timerInFlight with
  | true => exact ⟨h, fun _ => rfl⟩
  | false =>
    refine ⟨?_, fun hin => ?_⟩
    · show inFlight timerWord = true
      decide
    · rw [h] at hin
      cases hin

/-! ## Tokens -/

/-- The completions of a token. A timer interrupt taken from the guest is left to the guest. -/
def owed (fromGuest : Bool) (raw : UInt32) : List Completion :=
  if 1020 ≤ raw &&& gichLrIntidMask then []
  else if fromGuest = true ∧ raw &&& gichLrIntidMask = virtualTimerPpi then [.endOfInterrupt raw]
  else [.endOfInterrupt raw, .deactivate raw]

/-- These operations acknowledge this word and then complete what it names, and nothing is done
where it names none. -/
def CompletedOnce (fromGuest : Bool) (raw : UInt32) (ops : List Op) : Prop :=
  ∃ rest, ops = .load (.gic .iar) raw :: rest ∧ rest.filterMap completion = owed fromGuest raw ∧
    (1020 ≤ raw &&& gichLrIntidMask → rest = [])

variable {A : Type} {ack : InterruptAck} {guest : Interrupts}

theorem owed_eq_both {fromGuest : Bool} (h : ¬ (fromGuest = true ∧ ack.intid = virtualTimerPpi)) :
    owed fromGuest ack.raw = both ack := by
  unfold owed both
  rw [if_neg (UInt32.not_le.mpr ack.ordinary)]
  exact if_neg h

theorem owed_timer (h : ack.intid = virtualTimerPpi) :
    owed true ack.raw = [.endOfInterrupt ack.raw] := by
  unfold owed
  rw [if_neg (UInt32.not_le.mpr ack.ordinary)]
  exact if_pos ⟨rfl, h⟩

/-- What a token becomes: its completions, and `T` of the word and of the result. -/
def TokenServed (fromGuest : Bool) (T : UInt32 → Except Fault A → Prop) (ack : InterruptAck)
    (r : Except Fault A) (s : Ledger) : Prop :=
  T ack.raw r ∧ r ≠ .error .panicked ∧ s.completions = owed fromGuest ack.raw

/-- How a handler ends: the word that it acknowledged is completed and `T` holds, or it has read a
word that it does not know. -/
def Ended (fromGuest : Bool) (T : UInt32 → Except Fault A → Prop) (r : Except Fault A)
    (past : List Op) : Prop :=
  (∃ raw, T raw r ∧ r ≠ .error .panicked ∧ CompletedOnce fromGuest raw past.reverse) ∨
    r = .error .panicked ∧ ∃ a ∈ past, Unknown a

/-- A handler that first acknowledges. -/
theorem token_along {fromGuest : Bool} {T : UInt32 → Except Fault A → Prop}
    {f : Option InterruptAck → Handler A} {idle : A} (hnone : f none = Pure.pure idle)
    (hidle : ∀ raw, 1020 ≤ raw &&& gichLrIntidMask → T raw (.ok idle))
    (hf : ∀ ack, Walks ⟨[], none⟩ (f (some ack)) (TokenServed fromGuest T ack)) :
    (onGic acknowledge >>= f).run.Along Orderly (Ended fromGuest T) [] := by
  intro raw
  refine ⟨⟨sparesLists_load _ _, ok_plain trivial⟩, ?_⟩
  show Along _ _ (f (InterruptAck.fromRaw raw)).run [.load (.gic .iar) raw]
  cases hack : InterruptAck.fromRaw raw with
  | none =>
    have hspecial := InterruptAck.fromRaw_eq_none.mp hack
    rw [hnone]
    refine Or.inl ⟨raw, hidle raw hspecial, nofun, [], rfl, ?_, fun _ => rfl⟩
    exact (if_pos hspecial).symm
  | some ack =>
    obtain rfl := InterruptAck.fromRaw_eq_some.mp hack
    have hledger : ledger [.load (.gic .iar) ack.raw] = ledger [] := ledger_cons rfl (by nofun)
    -- The acknowledgement stays the oldest operation.
    refine (hf ack _ hledger).imp (fun past a hpast hok => ⟨hok, ?_⟩) ?_ (List.suffix_refl _)
    · exact hpast.trans (List.suffix_cons a past)
    rintro r _ ⟨newer, rfl⟩ (⟨hT, hcalm, hcompletions⟩ | hpanic)
    · refine Or.inl ⟨ack.raw, hT, hcalm, newer.reverse, by simp, ?_, fun hspecial => ?_⟩
      · rw [← hcompletions, ledger, List.filterMap_append, List.filterMap_reverse]
        simp [completion]
      · exact absurd hspecial (UInt32.not_le.mpr ack.ordinary)
    · exact Or.inr hpanic

/-! ## The handlers -/

/-- What becomes of a guest: its copy is kept, and the timer is in flight after its interrupt. -/
def GuestServed (guest : Interrupts) (raw : UInt32)
    (r : Except Fault (Interrupts × Except ExitError Unit)) : Prop :=
  CopyKept guest.gic r ∧ (raw &&& gichLrIntidMask = virtualTimerPpi →
    ∃ gic, r = .ok ({ guest with gic }, .ok ()) ∧ TimerQueued guest.gic gic)

theorem walks_of_both {x : Handler (Interrupts × Except ExitError Unit)}
    (hnot : ack.intid ≠ virtualTimerPpi)
    (h : Walks ⟨[], none⟩ x
      (Completes (fun pair => pair.1.gic = guest.gic) ⟨[], none⟩ (both ack))) :
    Walks ⟨[], none⟩ x (TokenServed true (GuestServed guest) ack) := by
  refine h.mono fun r s h => ⟨⟨?_, fun htimer => absurd htimer hnot⟩, h.calm, ?_⟩
  · rintro after result rfl
    rw [h.value _ rfl]
    exact Keeps.refl _
  · rw [h.completions, owed_eq_both fun htimer => hnot htimer.2]
    rfl

theorem handleAck_walks (image : Image) (hostConsoleIrq : Option UInt32) (console : List UInt8)
    (guest : Interrupts) (ack : InterruptAck) :
    Walks ⟨[], none⟩ (handleAck image hostConsoleIrq console guest ack)
      (TokenServed true (GuestServed guest) ack) := by
  unfold handleAck
  split
  · rename_i hsgi
    have hnot : ack.intid ≠ virtualTimerPpi := by
      rw [hsgi]
      decide
    exact walks_of_both hnot (dispatch_andStop rfl fun _ => rfl)
  split
  · rename_i htimer
    have htimer : ack.intid = virtualTimerPpi := beq_iff_eq.mp htimer
    rw [htimer]
    intro past hpast
    refine ⟨⟨⟨Or.inr nofun, Or.inr nofun⟩, ok_plain trivial⟩, Or.inl ⟨⟨?_, fun _ => ?_⟩, nofun, ?_⟩⟩
    · rintro _ _ ⟨⟩
      exact keeps_queueTimerPpi _
    · exact ⟨_, rfl, timerQueued guest.gic⟩
    · rw [ledger_completion (e := .endOfInterrupt ack.raw) rfl, hpast, owed_timer htimer]
      rfl
  rename_i htimer
  have hnot : ack.intid ≠ virtualTimerPpi := fun h => htimer (beq_iff_eq.mpr h)
  split
  · obtain ⟨dispatcher, hdrain⟩ := drainConsole_ok console guest.dispatcher
    rw [hdrain]
    exact walks_of_both hnot (complete_andNothing fun _ => .done rfl)
  · exact walks_of_both hnot (complete_andNothing fun _ => .done rfl)

theorem handleIrq_along (image : Image) (hostConsoleIrq : Option UInt32) (console : List UInt8)
    (guest : Interrupts) :
    (handleIrq image hostConsoleIrq console guest).run.Along Orderly
      (Ended true (GuestServed guest)) [] := by
  refine token_along rfl (fun raw hspecial => ⟨?_, fun htimer => ?_⟩)
    (handleAck_walks image hostConsoleIrq console guest)
  · rintro _ _ ⟨⟩
    exact Keeps.refl _
  · rw [htimer] at hspecial
    exact absurd hspecial (by decide)

theorem handleIrq_sparing (image : Image) (hostConsoleIrq : Option UInt32) (console : List UInt8)
    (guest : Interrupts) :
    (handleIrq image hostConsoleIrq console guest).run.Forall SparesLists (CopyKept guest.gic) := by
  refine (handleIrq_along image hostConsoleIrq console guest).forall (fun _ _ hok => hok.1) ?_
  rintro r _ (⟨raw, hserved, -⟩ | ⟨rfl, -⟩)
  · exact hserved.1
  · exact nofun

theorem currentIrq_along (image : Image) :
    (currentIrq image true).run.Along Orderly (Ended false fun _ _ => True) [] := by
  refine token_along rfl (fun _ _ => trivial) fun ack => ?_
  refine (currentAck_walks image ack rfl).mono fun r s h => ⟨trivial, h.calm, ?_⟩
  rw [h.completions, owed_eq_both fun hguest => Bool.noConfusion hguest.1]
  rfl

/-! ## All calls -/

/-- The calls on the memory of the host. Only a holder of the membership gate finishes the change,
so `finish_membership_change` is no call of its own. -/
inductive HostCall where
  | handleIrq (image : Image) (hostConsoleIrq : Option UInt32) (console : List UInt8)
      (guest : Interrupts)
  | currentIrq (image : Image) (gicPresent : Bool)
  | snapshot
  | channel (source target : Nat) (call : Management.Call)
  | mailbox (id : Nat) (call : SecondaryMailbox.Call)
  | updates (call : TlbUpdate.Call) (h : call ≠ .finishMembershipChange)
  | write (c : Cell) (v : Val c) (h : Plain c)

/-- What the handlers return, and that another call has returned. -/
inductive HostReply where
  | handled (r : Except Fault (Interrupts × Except ExitError Unit))
  | current (r : Except Fault Bool)
  | done

def hostCode : HostCall → HostManagement.Ops HostReply
  | .handleIrq image hostConsoleIrq console guest => do
      return .handled (← (handleIrq image hostConsoleIrq console guest).run)
  | .currentIrq image gicPresent => do return .current (← (currentIrq image gicPresent).run)
  | .snapshot => do
      let _ ← snapshot.run
      return .done
  | .channel source target call => do
      let _ ← (Management.code call).embed (Cell.channel source target)
      return .done
  | .mailbox id call => do
      let _ ← (SecondaryMailbox.code call).embed (Cell.mailbox id)
      return .done
  | .updates call _ => do
      let _ ← (TlbUpdate.code call).embed Cell.updates
      return .done
  | .write c v _ => do
      Atomic.store c v
      return .done

/-- Any number of threads, any calls, at any time. The registers of all CPUs are one set of words
that anybody may change between any two operations. -/
def host (Tid : Type) : System Val Tid HostCall HostReply Unit where
  code := hostCode
  start env _ _ := some env
  finish env _ _ _ := env

/-- How a handler's call ends after these operations, newest first. -/
def Served : HostCall → HostReply → List Op → Prop
  | .handleIrq _ _ _ guest, reply, past =>
      ∃ r, reply = .handled r ∧ Ended true (GuestServed guest) r past
  | .currentIrq _ true, reply, past =>
      ∃ r, reply = .current r ∧ Ended false (fun _ _ => True) r past
  | .currentIrq _ false, _, past => past = []
  | _, _, _ => True

theorem along_of_orderly {p : HostManagement.Ops A} {Q : A → List Op → Prop} {past : List Op}
    (h : p.Along Orderly Q past) : p.Along hostDiscipline.ok Q past :=
  h.imp (P := fun _ => True) (fun _ _ _ hok => ⟨hok.2, trivial⟩) (fun _ _ _ hQ => hQ) trivial

theorem hostCode_along (call : HostCall) :
    (hostCode call).Along hostDiscipline.ok (Served call) [] := by
  cases call with
  | handleIrq image hostConsoleIrq console guest =>
    exact (along_of_orderly (handleIrq_along image hostConsoleIrq console guest)).bind
      fun r _ hr => ⟨r, rfl, hr⟩
  | currentIrq image gicPresent =>
    cases gicPresent with
    | false => exact (rfl : ([] : List Op) = [])
    | true => exact (along_of_orderly (currentIrq_along image)).bind fun r _ hr => ⟨r, rfl, hr⟩
  | snapshot =>
    exact (along_of_orderly (snapshot_walks (s := ledger []) rfl [] rfl)).bind fun _ _ _ => trivial
  | channel source target call =>
    exact ((Management.code_inOrder call).embed_part (P := fun _ => True)
      (channel_injective source target) (fun _ _ => ok_channel) (fun _ _ _ => trivial)
      trivial).bind fun _ _ _ => trivial
  | mailbox id call =>
    exact ((SecondaryMailbox.code_orderly call).along.embed_part (P := fun _ => True)
      (mailbox_injective id) (fun _ _ => ok_mailbox) (fun _ _ _ => trivial)
      trivial).bind fun _ _ _ => trivial
  | updates call h =>
    exact ((TlbUpdate.code_guarded h [] rfl).embed_part (P := fun _ => True) updates_injective
      (fun _ _ hb => ok_updates hb.inGate) (fun _ _ _ => trivial)
      trivial).bind fun _ _ _ => trivial
  | write c v h => exact ⟨ok_plain h, trivial⟩

variable {Tid : Type} [DecidableEq Tid] {rest : ∀ c, Val c}
  {c : Config Val Tid HostCall HostReply Unit} {i : Invocation Val Tid HostCall}
  {reply : HostReply} {older : List (Event Val Tid HostCall HostReply)}

/-- No call has read a word that it does not know. -/
theorem own_known (hreach : Reach (host Tid) ⟨booted rest, (), []⟩ c)
    (hret : .ret i reply :: older <:+ c.shared.history) : ∀ a ∈ own i older, ¬ Unknown a := by
  intro a ha
  have hact := (traced hostCode_along hreach).mem_of_own ha hret rfl
  obtain ⟨m, pasts, hinv, henabled, hok⟩ :=
    (hostDiscipline.holds hostCode_along (booted_disciplined rest) hreach).2 i a
      (hret.subset (List.mem_cons_of_mem _ hact))
  exact known hinv henabled hok

/-- Every acknowledged interrupt is completed exactly once. In every interleaving of any calls from
boot on, with any registers and any requests, a call of one of the two handlers that has ended has
acknowledged one word and done with it what is owed; it has not panicked. -/
theorem interrupts_completed_once (hreach : Reach (host Tid) ⟨booted rest, (), []⟩ c)
    (hret : .ret i reply :: older <:+ c.shared.history) :
    (∀ image hostConsoleIrq console guest,
      i.call = .handleIrq image hostConsoleIrq console guest →
      ∃ r raw, reply = .handled r ∧ r ≠ .error .panicked ∧
        CompletedOnce true raw (own i older).reverse ∧
        (raw &&& gichLrIntidMask = virtualTimerPpi →
          ∃ gic, r = .ok ({ guest with gic }, .ok ()) ∧ TimerQueued guest.gic gic)) ∧
    (∀ image, i.call = .currentIrq image true →
      ∃ r raw, reply = .current r ∧ r ≠ .error .panicked ∧
        CompletedOnce false raw (own i older).reverse) ∧
    ∀ image, i.call = .currentIrq image false → own i older = [] := by
  have hserved : Served i.call reply (own i older) :=
    (traced hostCode_along hreach).ret i reply older hret
  have hknown := own_known hreach hret
  refine ⟨fun image hostConsoleIrq console guest hcall => ?_, fun image hcall => ?_,
    fun image hcall => ?_⟩ <;> rw [hcall] at hserved
  · obtain ⟨r, hreply, ⟨raw, hguest, hcalm, hcompleted⟩ | ⟨-, a, ha, hunknown⟩⟩ := hserved
    · exact ⟨r, raw, hreply, hcalm, hcompleted, hguest.2⟩
    · exact absurd hunknown (hknown a ha)
  · obtain ⟨r, hreply, ⟨raw, -, hcalm, hcompleted⟩ | ⟨-, a, ha, hunknown⟩⟩ := hserved
    · exact ⟨r, raw, hreply, hcalm, hcompleted⟩
    · exact absurd hunknown (hknown a ha)
  · exact hserved

/-- One CPU with its context at address 1, and no test features. -/
def smallImage : Image := ⟨fun id => id + 1, 0, false, false⟩

/-- CPU 1 takes the doorbell of CPU 0 at EL2. -/
def doorbell : ∀ c, Val c
  | .gic r => if r = .iar then managementSgi else 0
  | .hcrEl2 => El2Policy.hostHcr
  | .tpidrEl2 => (2 : Nat)
  | .cpu id c => if c = .generation then (7 : Nat) else if id = 0 then (1 : Nat) else (0 : Nat)
  | .channel _ _ _ | .mailbox _ _ | .updates _ | .job _ _ | .jobsStarted _ | .fatal => (0 : Nat)

/-- CPU 0 starts CPU 1, which comes online, and asks it to park. -/
def parkOnDoorbell : List (Move Nat HostCall) :=
  .start 0 (.mailbox 1 .markPrepared) :: List.replicate 2 (.next 0) ++
  .start 0 (.mailbox 1 (.publish 7)) :: List.replicate 3 (.next 0) ++
  .start 0 (.mailbox 1 (.beginStart 7)) :: List.replicate 3 (.next 0) ++
  .start 1 (.mailbox 1 (.park 7)) :: List.replicate 3 (.next 1) ++
  .start 1 (.mailbox 1 (.managementOnline 7)) :: List.replicate 3 (.next 1) ++
  .start 0 (.channel 0 1 (.submit .park 0)) :: List.replicate 8 (.next 0) ++
  .start 1 (.currentIrq smallImage true) :: List.replicate 36 (.next 1)

/-- The request is served inside the membership gate, and its token is completed. -/
theorem interrupts_completed_once_park :
    ∃ c i older,
      Config.run (host Nat) ⟨⟨booted doorbell, (), []⟩, fun _ => none⟩ parkOnDoorbell = some c ∧
      c.shared.history = .ret i (.current (.ok true)) :: older ∧
      i.call = .currentIrq smallImage true ∧
      c.shared.mem (.mailbox 1 .state) = SecondaryMailbox.CpuState.parked.toWord ∧
      .swap (.updates .gate) (0 : Nat) (2 : Nat) ∈ own i older ∧
      CompletedOnce false managementSgi (own i older).reverse := by
  have happly : ∀ c i older,
      Config.run (host Nat) ⟨⟨booted doorbell, (), []⟩, fun _ => none⟩ parkOnDoorbell = some c →
      c.shared.history = .ret i (.current (.ok true)) :: older →
      i.call = .currentIrq smallImage true →
      (own i older).getLast? = some (.load (.gic .iar) managementSgi) →
      CompletedOnce false managementSgi (own i older).reverse := by
    intro c i older hrun hhistory hcall hfirst
    obtain ⟨r, raw, -, -, hcompleted⟩ :=
      (interrupts_completed_once (Config.run_steps hrun) ⟨[], hhistory.symm⟩).2.1 smallImage hcall
    obtain ⟨rest, hops, -⟩ := id hcompleted
    rw [← List.head?_reverse, hops] at hfirst
    cases hfirst
    exact hcompleted
  exact ⟨_, _, _, rfl, rfl, rfl, rfl, List.mem_of_getElem? (i := 13) rfl,
    happly _ _ _ rfl rfl rfl rfl⟩

end Tvisor.GuestExit
