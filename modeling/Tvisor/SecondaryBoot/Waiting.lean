/-
# Tvisor.SecondaryBoot.Waiting -- a wait is sound, bounded and observational

`wait_for_parked` has two closures of its caller, one for the elapsed time and one for a fatal
condition, and it looks at three words of the boot. Here the elapsed time is a location next to the
shared memory, so that a run has every reading in its order with everything else that was seen.
Nothing is assumed about what stands there: a run is any sequence of values.

A fatal condition reaches the loop as an expired deadline. The loop then ends at once, and its
caller reports the condition and not the timeout.
-/
import Tvisor.Lib.Effects
import Tvisor.Lib.Traces
import Tvisor.Secondary.Steps

namespace Tvisor.SecondaryBoot.Waiting

open Interleave Interleave.Prog Fallible Words CpuTopology StartupPublication
open SecondaryMailbox (CpuState ProtocolError)

/-! ## What a wait looks at -/

inductive Sight where
  | elapsed
  | shared (c : Cell)
  deriving DecidableEq

abbrev Seen : Sight → Type
  | .elapsed => UInt64
  | .shared c => Val c

abbrev Watch (ε : Type) := ExceptT (Halt ε) (Prog Seen)

/-- Operations on the shared memory, among those of a wait. -/
instance sharedLift : MonadLift Ops (Prog Seen) := ⟨fun x => x.embed .shared⟩

/-- `elapsed()`: whatever the number of the reading, what stands there now. -/
def elapsed (_ : Nat) : Prog Seen Nat := do return (← Atomic.load Sight.elapsed : UInt64).toNat

/-! ## Runs of the loop -/

abbrev Op := Action Seen

variable {ε A B : Type} {slot ticks polls n generation maxPolls : Nat} {saw : Bool} {ops : List Op}
  {r : Except (Halt ε) (Except WaitError Unit × Bool)}

/-- A reading of the elapsed time. -/
def isReading : Op → Bool
  | .load .elapsed _ => true
  | _ => false

/-- A fatal condition was observed. -/
def FatalSeen (ops : List Op) : Prop := ∃ v : Nat, v ≠ 0 ∧ .load (.shared .fatal) v ∈ ops

/-- The last operations of a loop that saw the CPU parked. -/
def sighting (slot : Nat) (first second : UInt64) : List Op :=
  [.load .elapsed first,
    .load (.shared (lifecycleCell slot)) CpuState.parked.toWord,
    .load (.shared .fatal) (0 : Nat), .load .elapsed second]

/-- What the loop has done when it ends with this result. -/
structure Polled {ε : Type} (slot ticks polls : Nat) (ops : List Op)
    (r : Except (Halt ε) (Except WaitError Unit × Bool)) : Prop where
  fatal : FatalSeen ops → r = .ok (.error .timeout, true)
  quiet : ¬ FatalSeen ops → ∀ result saw, r = .ok (result, saw) → saw = false
  parked : ∀ saw, r = .ok (.ok (), saw) → ∃ before first second,
    ops = before ++ sighting slot first second ∧ first.toNat < ticks ∧ second.toNat < ticks
  readings : ops.countP isReading ≤ polls + 1
  length : ops.length ≤ 3 * polls + 2
  halted : ∀ halt, r = .error halt →
    ∃ word, CpuState.ofWord word = none ∧
      .load (.shared (lifecycleCell slot)) word ∈ ops

theorem Polled.next {word : Nat} {first : UInt64} (h : Polled slot ticks polls ops r) :
    Polled slot ticks (polls + 1) (.load (.shared .fatal) (0 : Nat) :: .load .elapsed first ::
      .load (.shared (lifecycleCell slot)) word :: ops) r := by
  have hseen : FatalSeen (.load (.shared .fatal) (0 : Nat) :: .load .elapsed first ::
      .load (.shared (lifecycleCell slot)) word :: ops) ↔ FatalSeen ops := by
    unfold FatalSeen
    refine exists_congr fun v => and_congr_right fun hv => ?_
    simp [hv]
  have hreadings := h.readings
  have hlength := h.length
  constructor
  · exact fun hfatal => h.fatal (hseen.mp hfatal)
  · exact fun hquiet => h.quiet fun hfatal => hquiet (hseen.mpr hfatal)
  · intro saw hr
    obtain ⟨before, first', second, rfl, hticks⟩ := h.parked saw hr
    exact ⟨_ :: _ :: _ :: before, first', second, rfl, hticks⟩
  · simp only [List.countP_cons, isReading]
    simpa using hreadings
  · simp only [List.length_cons]
    omega
  · intro halt hr
    obtain ⟨bad, hbad, hmem⟩ := h.halted halt hr
    exact ⟨bad, hbad, by simp [hmem]⟩

/-- A loop that ends with an error has seen a fatal condition, and calls it a timeout, or has seen
none. -/
theorem Polled.ended {e : WaitError} (hsaw : saw = true ↔ FatalSeen ops)
    (htimeout : saw = true → e = .timeout) (hreadings : ops.countP isReading ≤ polls + 1)
    (hlength : ops.length ≤ 3 * polls + 2) :
    Polled (ε := ε) slot ticks polls ops (.ok (.error e, saw)) := by
  refine ⟨?_, ?_, nofun, hreadings, hlength, nofun⟩
  · intro hfatal
    rw [htimeout (hsaw.mpr hfatal), hsaw.mpr hfatal]
  · rintro hquiet _ _ ⟨⟩
    exact Bool.eq_false_iff.mpr fun hset => hquiet (hsaw.mp hset)

/-- How a round goes that no fatal condition was seen before: it ends the loop, or `rest` is what
the loop does after it. -/
inductive Round {ε : Type} (slot ticks : Nat)
    (rest : Prog Seen (Except (Halt ε) (Except WaitError Unit × Bool))) :
    List Op → Except (Halt ε) (Except WaitError Unit × Bool) → Prop
  | fatal {v : Nat} (hv : v ≠ 0) :
      Round slot ticks rest [.load (.shared .fatal) v] (.ok (.error .timeout, true))
  | late {first : UInt64} (hfirst : ticks ≤ first.toNat) :
      Round slot ticks rest [.load (.shared .fatal) (0 : Nat), .load .elapsed first]
        (.ok (.error .timeout, false))
  | panicked {first : UInt64} {word : Nat} (hfirst : first.toNat < ticks)
      (hword : CpuState.ofWord word = none) :
      Round slot ticks rest [.load (.shared .fatal) (0 : Nat), .load .elapsed first,
        .load (.shared (lifecycleCell slot)) word] (.error .panicked)
  | failed {first : UInt64} {word : Nat} (hfirst : first.toNat < ticks) :
      Round slot ticks rest [.load (.shared .fatal) (0 : Nat), .load .elapsed first,
        .load (.shared (lifecycleCell slot)) word] (.ok (.error .cpuFailed, false))
  | parkedFatal {first : UInt64} {word v : Nat} (hfirst : first.toNat < ticks) (hv : v ≠ 0) :
      Round slot ticks rest [.load (.shared .fatal) (0 : Nat), .load .elapsed first,
        .load (.shared (lifecycleCell slot)) word, .load (.shared .fatal) v]
        (.ok (.error .timeout, true))
  | parkedLate {first second : UInt64} (hfirst : first.toNat < ticks)
      (hsecond : ticks ≤ second.toNat) :
      Round slot ticks rest (.load (.shared .fatal) (0 : Nat) :: sighting slot first second)
        (.ok (.error .timeout, false))
  | parked {first second : UInt64} (hfirst : first.toNat < ticks) (hsecond : second.toNat < ticks) :
      Round slot ticks rest (.load (.shared .fatal) (0 : Nat) :: sighting slot first second)
        (.ok (.ok (), false))
  | next {first : UInt64} {word : Nat} {ops : List Op}
      {r : Except (Halt ε) (Except WaitError Unit × Bool)} (hfirst : first.toNat < ticks)
      (hrest : rest.Ran ops r) :
      Round slot ticks rest (.load (.shared .fatal) (0 : Nat) :: .load .elapsed first ::
        .load (.shared (lifecycleCell slot)) word :: ops) r

theorem ran_hasFatal {ops : List (Action Val)} {b : Bool} (hrun : hasFatal.Ran ops b) :
    ∃ v : Nat, ops = [.load .fatal v] ∧ b = (v != 0) := by
  obtain ⟨v, rest, rfl, hret⟩ := ran_load.mp hrun
  obtain ⟨rfl, rfl⟩ := ran_ret.mp hret
  exact ⟨v, rfl, rfl⟩

theorem ran_counter {now : Nat} (hrun : (counter elapsed ticks n).Ran ops (now, saw)) :
    (∃ v : Nat, v ≠ 0 ∧ ops = [.load (.shared .fatal) v] ∧ now = ticks ∧ saw = true) ∨
    ∃ t : UInt64, ops = [.load (.shared .fatal) (0 : Nat), .load .elapsed t] ∧ now = t.toNat ∧
      saw = false := by
  obtain ⟨_, _, fatal, hfatal, hrest, rfl⟩ := Ran.of_bind hrun
  obtain ⟨_, hown, rfl⟩ := Ran.of_embed hfatal
  obtain ⟨v, rfl, rfl⟩ := ran_hasFatal hown
  by_cases hv : v = 0
  · subst hv
    obtain ⟨t, _, rfl, hret⟩ := ran_load.mp hrest
    obtain ⟨rfl, heq⟩ := ran_ret.mp hret
    cases heq
    exact Or.inr ⟨t, rfl, rfl, rfl⟩
  · rw [bne_iff_ne.mpr hv] at hrest
    obtain ⟨rfl, heq⟩ := ran_ret.mp hrest
    cases heq
    exact Or.inl ⟨v, hv, rfl, rfl, rfl⟩

theorem ran_lifecycle {ops : List SecondaryMailbox.Operation}
    {r : Except (Stop ProtocolError) CpuState}
    (hrun : SecondaryMailbox.lifecycle.run.Ran ops r) :
    (∃ s : CpuState, ops = [.load .state s.toWord] ∧ r = .ok s) ∨
    ∃ word, CpuState.ofWord word = none ∧ ops = [.load .state word] ∧
      r = .error .panicked := by
  obtain ⟨word, _, rfl, hmatch⟩ := Ran.of_load_bind hrun
  cases hword : CpuState.ofWord word with
  | none =>
    rw [hword] at hmatch
    obtain ⟨rfl, rfl⟩ := ran_ret.mp hmatch
    exact Or.inr ⟨word, hword, rfl, rfl⟩
  | some s =>
    rw [hword] at hmatch
    obtain ⟨rfl, rfl⟩ := ran_ret.mp hmatch
    rw [← SecondaryMailbox.toWord_of_ofWord hword]
    exact Or.inl ⟨s, rfl, rfl⟩

theorem ran_round
    (hrun : (pollParked elapsed slot 0 ticks (polls + 1) n false : Watch ε _).run.Ran ops r) :
    Round slot ticks (pollParked elapsed slot 0 ticks polls (n + 1) false : Watch ε _).run
      ops r := by
  have hzero : ∀ now, wrappingSub now 0 = now := fun now => wrappingSub_of_le (Nat.zero_le now)
  rw [pollParked] at hrun
  obtain ⟨_, _, ⟨now, fatal⟩, hcounter, hrest, rfl⟩ := Ran.of_lift_bind hrun
  simp only [hzero] at hrest
  rcases ran_counter hcounter with ⟨v, hv, rfl, rfl, rfl⟩ | ⟨first, rfl, rfl, rfl⟩
  · rw [if_pos le_rfl] at hrest
    obtain ⟨rfl, rfl⟩ := ran_ret.mp hrest
    exact .fatal hv
  split at hrest
  · rename_i hlate
    obtain ⟨rfl, rfl⟩ := ran_ret.mp hrest
    exact .late hlate
  rename_i hbefore
  replace hbefore := Nat.lt_of_not_le hbefore
  obtain ⟨_, _, state, hstate, hlast, rfl⟩ := Ran.of_lift_bind hrest
  obtain ⟨_, hmailbox, rfl⟩ := Ran.of_embed hstate
  obtain ⟨_, hown, rfl⟩ := Ran.of_embed hmailbox
  rcases ran_lifecycle hown with ⟨s, rfl, rfl⟩ | ⟨word, hword, rfl, rfl⟩
  · cases s with
    | failed =>
      obtain ⟨rfl, rfl⟩ := ran_ret.mp hlast
      exact .failed hbefore
    | parked =>
      obtain ⟨_, _, ⟨now, fatal'⟩, hagain, hend, rfl⟩ := Ran.of_lift_bind hlast
      dsimp only at hend
      rcases ran_counter hagain with ⟨v, hv, rfl, rfl, rfl⟩ | ⟨second, rfl, rfl, rfl⟩
      · rw [if_pos le_rfl] at hend
        obtain ⟨rfl, rfl⟩ := ran_ret.mp hend
        exact .parkedFatal hbefore hv
      split at hend
      · rename_i hlate
        obtain ⟨rfl, rfl⟩ := ran_ret.mp hend
        exact .parkedLate hbefore hlate
      rename_i hafter
      obtain ⟨rfl, rfl⟩ := ran_ret.mp hend
      exact .parked hbefore (Nat.lt_of_not_le hafter)
    | _ => exact .next hbefore hlast
  · obtain ⟨rfl, rfl⟩ := ran_ret.mp hlast
    exact .panicked hbefore hword

theorem ran_pollParked
    (hrun : (pollParked elapsed slot 0 ticks polls n false : Watch ε _).run.Ran ops r) :
    Polled slot ticks polls ops r := by
  induction polls generalizing ops n with
  | zero =>
    obtain ⟨rfl, rfl⟩ := ran_ret.mp hrun
    exact .ended (by simp [FatalSeen]) nofun (by simp) (by simp)
  | succ polls ih =>
    cases ran_round hrun with
    | fatal hv =>
      refine .ended ?_ (fun _ => rfl) (by simp [isReading]) (by simp)
      simpa [FatalSeen] using hv
    | late => exact .ended (by simp [FatalSeen]) nofun (by simp [isReading]) (by simp)
    | panicked hfirst hword =>
      refine ⟨?_, nofun, nofun, by simp [List.countP_cons, isReading], by simp; omega,
        fun _ _ => ⟨_, hword, by simp⟩⟩
      rintro ⟨v, hv, hmem⟩
      simp [hv] at hmem
    | failed =>
      exact .ended (by simp [FatalSeen]) nofun (by simp [List.countP_cons, isReading])
        (by simp; omega)
    | parkedFatal hfirst hv =>
      refine .ended ?_ (fun _ => rfl) (by simp [List.countP_cons, isReading]) (by simp; omega)
      simpa [FatalSeen, Nat.pos_iff_ne_zero] using hv
    | parkedLate =>
      exact .ended (by simp [FatalSeen, sighting]) nofun
        (by simp [sighting, List.countP_cons, isReading]) (by simp [sighting])
    | @parked first second hfirst hsecond =>
      refine ⟨?_, ?_, ?_, by simp [sighting, List.countP_cons, isReading], by simp [sighting],
        nofun⟩
      · rintro ⟨v, hv, hmem⟩
        simp [sighting, hv] at hmem
      · rintro - _ _ ⟨⟩
        rfl
      · intro _ _
        exact ⟨[_], first, second, rfl, hfirst, hsecond⟩
    | next _ hrest => exact (ih hrest).next

/-! ## Runs of the parts -/

/-- A run on the shared memory has no reading of the elapsed time. -/
theorem ran_shared {x : Attempt ε A} {r : Except (Halt ε) A}
    (hrun : (shared x : Watch ε _).run.Ran ops r) :
    ∃ own, x.run.Ran own r ∧ ops = own.map (Action.embed Sight.shared) := Ran.of_embed hrun

theorem returned_error {e : ε} (halt : Halt ε)
    (h : (.error (.error e) : Except (Halt ε) A) = .error halt) : ∃ e, halt = .error e :=
  ⟨e, (Except.error.inj h).symm⟩

theorem ran_bootStatus {ops : List (Action Val)} {r : Except (Halt ε) BootStatus}
    (hrun : (bootStatus : Attempt ε _).run.Ran ops r) :
    (∃ s : BootStatus, ops = [.load .boot s.toWord] ∧ r = .ok s) ∨
    (∃ word : Nat, BootStatus.ofWord word = none ∧ ops = [.load .boot word] ∧
      r = .error .panicked) := by
  obtain ⟨word, _, rfl, hmatch⟩ := Ran.of_load_bind hrun
  cases hword : BootStatus.ofWord word with
  | none =>
    rw [hword] at hmatch
    obtain ⟨rfl, rfl⟩ := ran_ret.mp hmatch
    exact Or.inr ⟨word, hword, rfl, rfl⟩
  | some s =>
    rw [hword] at hmatch
    obtain ⟨rfl, rfl⟩ := ran_ret.mp hmatch
    rw [← BootStatus.toWord_of_ofWord hword]
    exact Or.inl ⟨s, rfl, rfl⟩

theorem ran_check {ops : List SecondaryMailbox.Operation}
    {r : Except (Stop ProtocolError) Unit}
    (hrun : (SecondaryMailbox.check generation).run.Ran ops r) :
    (r = .error (.error .invalidGeneration) ∧ (ops = [] ∨ ∃ word, ops = [.load .ready word])) ∨
    (r = .ok () ∧ generation ≠ 0 ∧ ops = [.load .ready generation]) := by
  obtain ⟨before, after, ready, hready, hrest, rfl⟩ := Ran.of_lift_bind hrun
  unfold SecondaryMailbox.observeReady at hready
  by_cases hzero : generation = 0
  · rw [if_pos hzero] at hready
    obtain ⟨rfl, rfl⟩ := ran_ret.mp hready
    obtain ⟨rfl, rfl⟩ := ran_ret.mp hrest
    exact Or.inl ⟨rfl, Or.inl rfl⟩
  · rw [if_neg hzero] at hready
    obtain ⟨word, _, rfl, hret⟩ := ran_load.mp hready
    obtain ⟨rfl, rfl⟩ := ran_ret.mp hret
    by_cases hsame : word = generation
    · subst hsame
      rw [beq_self_eq_true] at hrest
      obtain ⟨rfl, rfl⟩ := ran_ret.mp hrest
      exact Or.inr ⟨rfl, hzero, rfl⟩
    · rw [beq_eq_false_iff_ne.mpr hsame] at hrest
      obtain ⟨rfl, rfl⟩ := ran_ret.mp hrest
      exact Or.inl ⟨rfl, Or.inr ⟨word, rfl⟩⟩

theorem ran_hasParked {ops : List SecondaryMailbox.Operation}
    {r : Except (Stop ProtocolError) Bool}
    (hrun : (SecondaryMailbox.hasParked generation).run.Ran ops r) :
    ops.length ≤ 2 ∧
      (r = .ok true → ops =
        [.load .ready generation, .load .state CpuState.parked.toWord]) ∧
      ∀ halt, r = .error halt →
        ∃ word, CpuState.ofWord word = none ∧ .load .state word ∈ ops := by
  obtain ⟨before, after, state, hstate, hrest, rfl⟩ := Ran.of_bind hrun
  rcases Ran.of_run_bind hstate with ⟨first, second, _, hcheck, hlife, rfl⟩ | ⟨e, hcheck, rfl⟩
  · rcases ran_check hcheck with ⟨hr, -⟩ | ⟨-, -, rfl⟩
    · cases hr
    rcases ran_lifecycle hlife with ⟨s, rfl, rfl⟩ | ⟨word, hword, rfl, rfl⟩
    · obtain ⟨rfl, rfl⟩ := ran_ret.mp hrest
      refine ⟨by simp, fun hparked => ?_, nofun⟩
      rw [beq_iff_eq.mp (Except.ok.inj hparked)]
      rfl
    · obtain ⟨rfl, rfl⟩ := ran_ret.mp hrest
      exact ⟨by simp, nofun, fun _ _ => ⟨word, hword, by simp⟩⟩
  · rcases ran_check hcheck with ⟨he, hops⟩ | ⟨hr, -⟩
    · cases he
      obtain ⟨rfl, rfl⟩ := ran_ret.mp hrest
      refine ⟨?_, nofun, nofun⟩
      rcases hops with rfl | ⟨word, rfl⟩ <;> simp
    · cases hr

/-- The words that a checkpoint is verified with. -/
def checkpoint (slot generation : Nat) : List (Action Val) :=
  [.load (.slot slot (.mailbox .ready)) generation,
    .load (lifecycleCell slot) CpuState.parked.toWord,
    .load (.failures slot) (0 : Nat)]

/-- The view is of this CPU and of this generation. -/
structure Identified (record : StartupView) (id generation : Nat) : Prop where
  secondary : id ≠ 0 ∧ id < maxCpus
  logicalId : record.identity.logicalId = id
  context : record.identity.context = record.slotAddress
  generation : generation ≠ 0 ∧ record.generation = generation

/-- A lifecycle word that no state has. -/
def Strange (slot : Nat) (op : Action Val) : Prop :=
  ∃ word : Nat, CpuState.ofWord word = none ∧ op = .load (lifecycleCell slot) word

theorem ran_slotHasParked {ops : List (Action Val)} {r : Except (Halt BootError) Bool}
    (hrun : (hasParked slot generation : Attempt BootError Bool).run.Ran ops r) :
    ops.length ≤ 2 ∧ (∀ op ∈ ops, op.loc ≠ .fatal) ∧
      (r = .ok true → ops = (checkpoint slot generation).take 2) ∧
      ∀ halt, r = .error halt → ∃ op ∈ ops, Strange slot op := by
  obtain ⟨_, _, x, hparked, hret, rfl⟩ := Ran.of_lift_bind hrun
  obtain ⟨own, hown, rfl⟩ := Ran.of_embed hparked
  obtain ⟨hlength, hseen, hstrange⟩ := ran_hasParked hown
  have hquiet : ∀ op ∈ own.map (Action.embed fun c => Cell.slot slot (.mailbox c)),
      op.loc ≠ .fatal := by
    intro op hop
    obtain ⟨step, -, rfl⟩ := List.mem_map.mp hop
    rw [Action.embed_loc]
    exact nofun
  rcases x with e | b
  · obtain ⟨rfl, rfl⟩ := ran_ret.mp hret
    obtain ⟨word, hword, hmem⟩ := hstrange e rfl
    rw [List.append_nil]
    refine ⟨by rwa [List.length_map], hquiet, nofun, fun _ _ => ?_⟩
    exact ⟨_, List.mem_map_of_mem hmem, word, hword, rfl⟩
  · obtain ⟨rfl, rfl⟩ := ran_ret.mp hret
    rw [List.append_nil]
    refine ⟨by rwa [List.length_map], hquiet, fun hb => ?_, nofun⟩
    cases hb
    rw [hseen rfl]
    rfl

theorem ran_verifyCheckpoint {record : StartupView} {id : Nat} {ops : List (Action Val)}
    {r : Except (Halt BootError) Unit}
    (hrun : (verifyCheckpoint record id generation).run.Ran ops r) :
    ops.length ≤ 3 ∧ (∀ op ∈ ops, op.loc ≠ .fatal) ∧
      (∀ halt, r = .error halt → (∃ e, halt = .error e) ∨ ∃ op ∈ ops, Strange record.slot op) ∧
      (r = .ok () → Identified record id generation ∧ ops = checkpoint record.slot generation) := by
  unfold verifyCheckpoint at hrun
  split at hrun
  · obtain ⟨rfl, rfl⟩ := ran_ret.mp hrun
    exact ⟨by simp, by simp, fun halt h => Or.inl (returned_error halt h), nofun⟩
  rename_i hvalid
  simp only [not_or, not_not, Nat.not_le] at hvalid
  obtain ⟨hid, hmax, hlogical, hcontext, hzero, hgeneration⟩ := hvalid
  rcases Ran.of_run_bind hrun with ⟨_, _, parked, hparked, hrest, rfl⟩ | ⟨e, hparked, rfl⟩
  swap
  · obtain ⟨hlength, hquiet, -, hstrange⟩ := ran_slotHasParked hparked
    exact ⟨by omega, hquiet, fun _ _ => Or.inr (hstrange _ rfl), nofun⟩
  obtain ⟨hlength, hquiet, hseen, -⟩ := ran_slotHasParked hparked
  cases parked with
  | false =>
    obtain ⟨rfl, rfl⟩ := ran_ret.mp hrest
    rw [List.append_nil]
    exact ⟨by omega, hquiet, fun halt h => Or.inl (returned_error halt h), nofun⟩
  | true =>
    obtain ⟨failures, _, rfl, hlast⟩ := Ran.of_load_bind hrest
    obtain rfl := hseen rfl
    split at hlast
    · obtain ⟨rfl, rfl⟩ := ran_ret.mp hlast
      exact ⟨by simp [checkpoint], by simp [checkpoint, Action.loc],
        fun halt h => Or.inl (returned_error halt h), nofun⟩
    · rename_i hfailures
      obtain rfl : failures = (0 : Nat) := not_not.mp hfailures
      obtain ⟨rfl, rfl⟩ := ran_ret.mp hlast
      refine ⟨by simp [checkpoint], by simp [checkpoint, Action.loc], nofun, fun _ => ⟨?_, rfl⟩⟩
      exact ⟨⟨hid, hmax⟩, hlogical, hcontext, hzero, hgeneration⟩

/-- How `wait_until_parked` goes: it looks at the published generation, it refuses a deadline out of
range, and then it polls. -/
theorem waitUntilParked_cases
    (hrun : (waitUntilParked elapsed slot generation 0 ticks maxPolls : Watch ε _).run.Ran ops r) :
    (r = .ok (.error .invalidGeneration, false) ∧
      (ops = [] ∨ ∃ word : Nat, ops = [.load (.shared (.slot slot (.mailbox .ready))) word])) ∨
    ((ticks = 0 ∨ 1 <<< 63 ≤ ticks) ∧ r = .ok (.error .invalidDeadline, false) ∧
      ops = [.load (.shared (.slot slot (.mailbox .ready))) generation]) ∨
    (¬ (ticks = 0 ∨ 1 <<< 63 ≤ ticks) ∧
      ∃ tail, ops = .load (.shared (.slot slot (.mailbox .ready))) generation :: tail ∧
        (pollParked elapsed slot 0 ticks maxPolls 0 false : Watch ε _).run.Ran tail r) := by
  obtain ⟨before, after, result, hcheck, hrest, rfl⟩ := Ran.of_lift_bind hrun
  obtain ⟨_, hmailbox, rfl⟩ := Ran.of_embed hcheck
  obtain ⟨own, hown, rfl⟩ := Ran.of_embed hmailbox
  rcases ran_check hown with ⟨rfl, hops⟩ | ⟨rfl, -, rfl⟩
  · obtain ⟨rfl, rfl⟩ := ran_ret.mp hrest
    refine Or.inl ⟨rfl, ?_⟩
    rcases hops with rfl | ⟨word, rfl⟩
    · exact Or.inl rfl
    · exact Or.inr ⟨word, rfl⟩
  · replace hrest : Ran (ExceptT.run (if ticks = 0 ∨ 1 <<< 63 ≤ ticks
      then (pure (.error .invalidDeadline, false) : Watch ε _)
      else pollParked elapsed slot 0 ticks maxPolls 0 false)) after r := hrest
    split at hrest
    · rename_i hinvalid
      obtain ⟨rfl, rfl⟩ := ran_ret.mp hrest
      exact Or.inr (Or.inl ⟨hinvalid, rfl, rfl⟩)
    · rename_i hvalid
      exact Or.inr (Or.inr ⟨hvalid, after, rfl, hrest⟩)

theorem ran_waitUntilParked
    (hrun : (waitUntilParked elapsed slot generation 0 ticks maxPolls : Watch ε _).run.Ran ops r) :
    ∃ head tail, ops = head ++ tail ∧ Polled slot ticks maxPolls tail r ∧
      (head = [] ∨ ∃ word : Nat, head = [.load (.shared (.slot slot (.mailbox .ready))) word]) ∧
      ∀ saw, r = .ok (.ok (), saw) →
        head = [.load (.shared (.slot slot (.mailbox .ready))) generation] := by
  have hend : ∀ e : WaitError, Polled (ε := ε) slot ticks maxPolls [] (.ok (.error e, false)) :=
    fun e => .ended (by simp [FatalSeen]) nofun (by simp) (by simp)
  rcases waitUntilParked_cases hrun with ⟨rfl, hops⟩ | ⟨-, rfl, rfl⟩ | ⟨-, tail, rfl, hpoll⟩
  · exact ⟨ops, [], (List.append_nil ops).symm, hend _, hops, nofun⟩
  · exact ⟨_, [], rfl, hend _, Or.inr ⟨generation, rfl⟩, nofun⟩
  · exact ⟨[_], tail, rfl, ran_pollParked hpoll, Or.inr ⟨generation, rfl⟩, fun _ _ => rfl⟩

/-! ## Whole waits -/

/-- The word is one that the source's enumerations know. -/
def Known : Op → Prop
  | .load (.shared .boot) word => BootStatus.ofWord word ≠ none
  | .load (.shared (.slot _ (.mailbox .state))) word =>
      CpuState.ofWord word ≠ none
  | _ => True

/-- What a wait that succeeds has seen, in this order: the boot state at `Releasing`, the generation
published, a reading below the deadline, the CPU at `Parked`, another reading below the deadline, no
fatal condition, the boot state still at `Releasing`, and the checkpoint. -/
structure Confirmed (record : StartupView) (id generation ticks : Nat) (ops : List Op) : Prop where
  identified : Identified record id generation
  seen : ∃ before first second, first.toNat < ticks ∧ second.toNat < ticks ∧
    ops = .load (.shared .boot) BootStatus.releasing.toWord ::
      .load (.shared (.slot record.slot (.mailbox .ready))) generation ::
      (before ++ sighting record.slot first second ++
        .load (.shared .fatal) (0 : Nat) ::
        .load (.shared .boot) BootStatus.releasing.toWord ::
        (checkpoint record.slot generation).map (Action.embed Sight.shared))

variable {record : StartupView} {id : Nat} {result : Except WaitError Unit}
  {r : Except (Halt BootError) Unit}

/-- What the part after the loop has done. -/
structure Concluded (record : StartupView) (id generation : Nat) (result : Except WaitError Unit)
    (ops : List Op) (r : Except (Halt BootError) Unit) : Prop where
  fatal : FatalSeen ops → r = .error (.error .fatal)
  ok : r = .ok () → result = .ok () ∧ Identified record id generation ∧
    ops = .load (.shared .fatal) (0 : Nat) ::
      .load (.shared .boot) BootStatus.releasing.toWord ::
      (checkpoint record.slot generation).map (Action.embed Sight.shared)
  readings : ops.countP isReading = 0
  length : ops.length ≤ 5
  returns : ∀ halt, r = .error halt → (∃ e, halt = .error e) ∨ ∃ op ∈ ops, ¬ Known op

theorem countP_embed (ops : List (Action Val)) :
    (ops.map (Action.embed Sight.shared)).countP isReading = 0 := by
  rw [List.countP_eq_zero]
  intro op hop
  obtain ⟨own, -, rfl⟩ := List.mem_map.mp hop
  cases own <;> simp [Action.embed, isReading]

/-- After the fatal flag was found clear, the rest looks at the shared memory, elsewhere. -/
theorem Concluded.of_clear (own : List (Action Val)) (hfatal : ∀ op ∈ own, op.loc ≠ .fatal)
    (hlength : own.length ≤ 4)
    (hok : r = .ok () → result = .ok () ∧ Identified record id generation ∧
      own = .load .boot BootStatus.releasing.toWord :: checkpoint record.slot generation)
    (hreturns : ∀ halt, r = .error halt → (∃ e, halt = .error e) ∨
      ∃ op ∈ own, ¬ Known (op.embed Sight.shared)) :
    Concluded record id generation result
      (.load (.shared .fatal) (0 : Nat) :: own.map (Action.embed Sight.shared)) r := by
  constructor
  · rintro ⟨v, hv, hmem⟩
    rcases List.mem_cons.mp hmem with heq | hmem
    · cases heq
      exact absurd rfl hv
    · obtain ⟨op, hop, heq⟩ := List.mem_map.mp hmem
      have hloc := congrArg Action.loc heq
      rw [Action.embed_loc] at hloc
      exact absurd (Sight.shared.inj hloc) (hfatal op hop)
  · intro hr
    obtain ⟨hresult, hid, rfl⟩ := hok hr
    exact ⟨hresult, hid, rfl⟩
  · rw [List.countP_cons, countP_embed]
    rfl
  · rw [List.length_cons, List.length_map]
    omega
  · intro halt hr
    refine (hreturns halt hr).imp_right ?_
    rintro ⟨op, hop, hunknown⟩
    exact ⟨_, List.mem_cons_of_mem _ (List.mem_map_of_mem hop), hunknown⟩

theorem ran_concludeWait
    (hrun : (concludeWait record id generation result : Watch _ _).run.Ran ops r) :
    Concluded record id generation result ops r := by
  obtain ⟨_, after, fatal, hfatal, hrest, rfl⟩ := Ran.of_lift_bind hrun
  obtain ⟨_, hown, rfl⟩ := Ran.of_embed hfatal
  obtain ⟨v, rfl, rfl⟩ := ran_hasFatal hown
  by_cases hv : v = 0
  swap
  · rw [bne_iff_ne.mpr hv] at hrest
    obtain ⟨rfl, rfl⟩ := ran_ret.mp hrest
    exact ⟨fun _ => rfl, nofun, rfl, by simp, fun halt h => Or.inl (returned_error halt h)⟩
  subst hv
  cases result with
  | error e =>
    obtain ⟨rfl, rfl⟩ := ran_ret.mp hrest
    exact .of_clear [] (by simp) (by simp) nofun fun halt h => Or.inl (returned_error halt h)
  | ok u =>
    rcases Ran.of_run_bind hrest with ⟨_, _, status, hboot, hlast, rfl⟩ | ⟨e, hboot, rfl⟩
    · obtain ⟨_, hown, rfl⟩ := ran_shared hboot
      rcases ran_bootStatus hown with ⟨_, rfl, ⟨⟩⟩ | ⟨_, _, _, ⟨⟩⟩
      split at hlast
      · obtain ⟨rfl, rfl⟩ := ran_ret.mp hlast
        exact .of_clear [_] (by simp [Action.loc]) (by simp) nofun
          fun halt h => Or.inl (returned_error halt h)
      · rename_i hreleasing
        obtain rfl : status = .releasing := not_not.mp hreleasing
        obtain ⟨own, hverify, rfl⟩ := ran_shared hlast
        obtain ⟨hlength, hquiet, hreturns, hok⟩ := ran_verifyCheckpoint hverify
        refine .of_clear (_ :: own) ?_ ?_ ?_ fun halt hr => (hreturns halt hr).imp_right ?_
        · simpa [Action.loc] using hquiet
        · rw [List.length_cons]
          omega
        · intro hr
          obtain ⟨hid, rfl⟩ := hok hr
          exact ⟨rfl, hid, rfl⟩
        · rintro ⟨op, hop, word, hword, rfl⟩
          exact ⟨_, List.mem_cons_of_mem _ hop, fun hknown => hknown hword⟩
    · obtain ⟨_, hown, rfl⟩ := ran_shared hboot
      rcases ran_bootStatus hown with ⟨_, _, ⟨⟩⟩ | ⟨word, hword, rfl, ⟨⟩⟩
      refine .of_clear [_] (by simp [Action.loc]) (by simp) nofun fun _ _ => Or.inr ?_
      exact ⟨_, List.mem_singleton_self _, fun hknown => hknown hword⟩

/-- What a wait has done when it ends with this result. -/
structure Observed (record : StartupView) (id generation ticks maxPolls : Nat) (ops : List Op)
    (r : Except (Halt BootError) Unit) : Prop where
  confirmed : r = .ok () → Confirmed record id generation ticks ops
  fatal : FatalSeen ops → r = .error (.error .fatal)
  readings : ops.countP isReading ≤ maxPolls + 1
  length : ops.length ≤ 3 * maxPolls + 9
  returns : (∀ op ∈ ops, Known op) → ∀ halt, r = .error halt → ∃ e, halt = .error e

theorem fatalSeen_append {ops' : List Op} :
    FatalSeen (ops ++ ops') ↔ FatalSeen ops ∨ FatalSeen ops' := by
  simp only [FatalSeen, List.mem_append, and_or_left, exists_or]

/-- A wait that is over before it looks at the mailbox. -/
theorem Observed.refused {word : Nat} (e : BootError) : Observed record id generation ticks maxPolls
      [.load (.shared .boot) word] (.error (.error e)) := by
  refine ⟨nofun, ?_, by simp [isReading], by simp, ?_⟩
  · rintro ⟨v, hv, hmem⟩
    simp at hmem
  · rintro _ _ ⟨⟩
    exact ⟨e, rfl⟩

/-- The operations before the loop. -/
structure Lead (slot : Nat) (lead : List Op) : Prop where
  quiet : ¬ FatalSeen lead
  readings : lead.countP isReading = 0
  length : lead.length ≤ 2

theorem Lead.of_head {slot word : Nat} {head : List Op}
    (h : head = [] ∨ ∃ word : Nat, head = [.load (.shared (.slot slot (.mailbox .ready))) word]) :
    Lead slot (.load (.shared .boot) word :: head) := by
  rcases h with rfl | ⟨generation, rfl⟩
  · refine ⟨?_, rfl, by simp⟩
    rintro ⟨v, hv, hmem⟩
    simp at hmem
  · refine ⟨?_, rfl, by simp⟩
    rintro ⟨v, hv, hmem⟩
    simp at hmem

/-- A loop that halts, or that has seen a fatal condition, ends the wait. -/
theorem Observed.of_polled {lead tail : List Op}
    {loop : Except (Halt BootError) (Except WaitError Unit × Bool)}
    (hlead : Lead record.slot lead) (hpolled : Polled record.slot ticks maxPolls tail loop)
    (hok : r ≠ .ok ()) (hfatal : FatalSeen tail → r = .error (.error .fatal))
    (hreturns : (∀ op ∈ tail, Known op) → ∀ halt, r = .error halt → ∃ e, halt = .error e) :
    Observed record id generation ticks maxPolls (lead ++ tail) r := by
  have hreadings := hpolled.readings
  have hlength := hpolled.length
  have hleadLength := hlead.length
  refine ⟨fun h => absurd h hok, ?_, ?_, ?_, ?_⟩
  · intro h
    exact hfatal ((fatalSeen_append.mp h).resolve_left hlead.quiet)
  · rw [List.countP_append, hlead.readings]
    omega
  · rw [List.length_append]
    omega
  · exact fun hknown => hreturns fun op hop => hknown op (List.mem_append_right _ hop)

theorem Observed.of_concluded {head tail after : List Op}
    (hlead : Lead record.slot (.load (.shared .boot) BootStatus.releasing.toWord :: head))
    (hpolled : Polled (ε := BootError) record.slot ticks maxPolls tail (.ok (result, false)))
    (hready : result = .ok () →
      head = [.load (.shared (.slot record.slot (.mailbox .ready))) generation])
    (hconcluded : Concluded record id generation result after r) :
    Observed record id generation ticks maxPolls
      (.load (.shared .boot) BootStatus.releasing.toWord :: head ++ tail ++ after) r := by
  have hreadings := hpolled.readings
  have hlength := hpolled.length
  have hleadLength := hlead.length
  have hafter := hconcluded.length
  constructor
  · intro hr
    obtain ⟨rfl, hid, rfl⟩ := hconcluded.ok hr
    obtain ⟨before, first, second, rfl, hfirst, hsecond⟩ := hpolled.parked false rfl
    obtain rfl := hready rfl
    exact ⟨hid, before, first, second, hfirst, hsecond, rfl⟩
  · intro hfatal
    rcases fatalSeen_append.mp hfatal with hfatal | hfatal
    · -- The loop would have reported it.
      cases hpolled.fatal ((fatalSeen_append.mp hfatal).resolve_left hlead.quiet)
    · exact hconcluded.fatal hfatal
  · rw [List.countP_append, List.countP_append, hlead.readings, hconcluded.readings]
    omega
  · rw [List.length_append, List.length_append]
    omega
  · intro hknown halt hr
    refine (hconcluded.returns halt hr).resolve_right ?_
    rintro ⟨op, hop, hunknown⟩
    exact hunknown (hknown op (List.mem_append_right _ hop))

theorem ran_waitForParked
    (hrun : (waitForParked elapsed record id generation ticks maxPolls).run.Ran ops r) :
    Observed record id generation ticks maxPolls ops r := by
  rcases Ran.of_run_bind hrun with ⟨_, _, status, hboot, hrest, rfl⟩ | ⟨e, hboot, rfl⟩
  swap
  · obtain ⟨_, hown, rfl⟩ := ran_shared hboot
    rcases ran_bootStatus hown with ⟨_, _, ⟨⟩⟩ | ⟨word, hword, rfl, ⟨⟩⟩
    refine ⟨nofun, ?_, by simp [Action.embed, isReading], by simp, ?_⟩
    · rintro ⟨v, hv, hmem⟩
      simp [Action.embed] at hmem
    · intro hknown
      exact absurd hword (hknown _ (List.mem_singleton_self _))
  obtain ⟨_, hown, rfl⟩ := ran_shared hboot
  rcases ran_bootStatus hown with ⟨_, rfl, ⟨⟩⟩ | ⟨_, _, _, ⟨⟩⟩
  split at hrest
  · obtain ⟨rfl, rfl⟩ := ran_ret.mp hrest
    exact .refused _
  rename_i hreleasing
  obtain rfl : status = .releasing := not_not.mp hreleasing
  split at hrest
  · obtain ⟨rfl, rfl⟩ := ran_ret.mp hrest
    exact .refused _
  rcases Ran.of_run_bind hrest with ⟨_, after, ⟨result, saw⟩, hwait, hlast, rfl⟩ | ⟨e, hwait, rfl⟩
  · obtain ⟨head, tail, rfl, hpolled, hhead, hready⟩ := ran_waitUntilParked hwait
    have hlead : Lead record.slot (.load (.shared .boot) BootStatus.releasing.toWord :: head) :=
      .of_head hhead
    cases saw with
    | true =>
      obtain ⟨rfl, rfl⟩ := ran_ret.mp hlast
      rw [List.append_nil]
      show Observed _ _ _ _ _ (_ :: head ++ tail) _
      refine .of_polled hlead hpolled nofun (fun _ => rfl) ?_
      exact fun _ => returned_error
    | false =>
      refine .of_concluded hlead hpolled (fun hresult => ?_) (ran_concludeWait hlast)
      exact hready false (by rw [hresult])
  · obtain ⟨head, tail, rfl, hpolled, hhead, -⟩ := ran_waitUntilParked hwait
    have hlead : Lead record.slot (.load (.shared .boot) BootStatus.releasing.toWord :: head) :=
      .of_head hhead
    show Observed _ _ _ _ _ (_ :: head ++ tail) _
    refine .of_polled hlead hpolled nofun (fun hfatal => ?_) fun hknown => ?_
    · cases hpolled.fatal hfatal
    · obtain ⟨word, hword, hmem⟩ := hpolled.halted e rfl
      exact absurd hword (hknown _ hmem)

/-- What only loads of the shared memory only loads. -/
theorem shared_loads {A : Type} {x : Ops A} (h : x.Only Action.IsLoad) :
    (liftM x : Prog Seen A).Only Action.IsLoad := by
  refine .embed (h.mono ?_)
  rintro _ ⟨c, v, rfl⟩
  exact ⟨.shared c, v, rfl⟩

theorem elapsed_loads (n : Nat) : (elapsed n).Only Action.IsLoad :=
  fun v => ⟨⟨.elapsed, v, rfl⟩, trivial⟩

/-- A wait is sound, reports every fatal condition that it saw, is bounded, and only looks; and it
returns whatever it sees. -/
theorem waitForParked_observes (record : StartupView) (id generation ticks maxPolls : Nat) :
    (∀ found : Nat → ∀ l, Seen l, ∃ (ops : List Op) (r : Except (Halt BootError) Unit),
      (waitForParked elapsed record id generation ticks maxPolls).run.Ran ops r ∧
      ∀ (n : Nat) op, ops[n]? = some op → op.Enabled (found n)) ∧
    ∀ ops r, (waitForParked elapsed record id generation ticks maxPolls).run.Ran ops r →
      (r = .ok () → Confirmed record id generation ticks ops) ∧
      (FatalSeen ops → r = .error (.error .fatal)) ∧
      ops.countP isReading ≤ maxPolls + 1 ∧ ops.length ≤ 3 * maxPolls + 9 ∧
      ((∀ op ∈ ops, Known op) → ∀ halt, r = .error halt → ∃ e, halt = .error e) ∧
      ∀ op ∈ ops, op.IsLoad := by
  refine ⟨exists_ran _, ?_⟩
  intro ops r hrun
  have hobserved := ran_waitForParked hrun
  have hloads := Secondary.waitForParked_loads shared_loads elapsed_loads record id generation ticks
    maxPolls
  exact ⟨hobserved.confirmed, hobserved.fatal, hobserved.readings, hobserved.length,
    hobserved.returns, (hrun.forall hloads).1⟩

/-- The view of CPU 1 in its slot at address 4096. -/
def firstView : StartupView :=
  ⟨1, ⟨1, 1, 0, 0, 4096⟩, ⟨0, 0, 0, 0⟩, 7, 4096⟩

/-- CPU 1 is parked when the wait begins, and the time stands still. -/
theorem waitForParked_observes_parked : ∃ ops,
    (waitForParked elapsed firstView 1 7 10 1).run.Ran ops (.ok ()) ∧
      Confirmed firstView 1 7 10 ops := by
  have hrun : (waitForParked elapsed firstView 1 7 10 1).run.Ran
      [.load (.shared .boot) (2 : Nat), .load (.shared (.slot 1 (.mailbox .ready))) (7 : Nat),
        .load (.shared .fatal) (0 : Nat), .load .elapsed (0 : UInt64),
        .load (.shared (lifecycleCell 1)) (3 : Nat), .load (.shared .fatal) (0 : Nat),
        .load .elapsed (0 : UInt64), .load (.shared .fatal) (0 : Nat),
        .load (.shared .boot) (2 : Nat), .load (.shared (.slot 1 (.mailbox .ready))) (7 : Nat),
        .load (.shared (lifecycleCell 1)) (3 : Nat), .load (.shared (.failures 1)) (0 : Nat)]
      (.ok ()) :=
    .load (.load (.load (.load (.load (.load (.load (.load (.load (.load (.load (.load
      (.ret _))))))))))))
  exact ⟨_, hrun, ((waitForParked_observes firstView 1 7 10 1).2 _ _ hrun).1 rfl⟩

end Tvisor.SecondaryBoot.Waiting
