/-
# Tvisor.TlbUpdate.Failure -- a failed update stays failed

`fail` is an unconditional store, and it races with four exchanges of the phase and with the release
of the gate. The exchanges are what makes it stick: none of them expects `Failed`, so none can take
place once the phase is failed, and no other operation writes the phase. A method that starts after
that sees the failure in its first load of the phase and writes nothing.

The client here is any client: any number of CPUs, any call at any time, several coordinators at
once.
-/
import Tvisor.TlbUpdate.Gate

namespace Tvisor.TlbUpdate

open Interleave

/-! ## What the code can do, whatever it reads -/

variable {a : Op}

/-- The operation writes the phase only as a failure, or where it was no failure. -/
def Sticky : Op → Prop
  | .store .phase v => Phase.ofWord v = .failed
  | .exchange .phase expected _ true => Phase.ofWord expected ≠ .failed
  | .swap .phase _ _ => False
  | _ => True

theorem Sticky.keeps (h : Sticky a) {m : Memory} (henabled : a.Enabled m)
    (hfailed : phaseOf m = .failed) : phaseOf (a.apply m) = .failed := by
  cases a with
  | load c v => exact hfailed
  | store c v =>
    by_cases hc : c = .phase
    · subst hc
      simp only [phaseOf, Action.apply, Function.update_self]
      exact h
    · simpa [phaseOf, Action.apply, Function.update_of_ne (Ne.symm hc)] using hfailed
  | exchange c expected new success =>
    rcases success with _ | _
    · exact hfailed
    · by_cases hc : c = .phase
      · subst hc
        have hphase : m .phase = expected := henabled.mp rfl
        exact absurd (hphase ▸ hfailed) h
      · simpa [phaseOf, Action.apply, Function.update_of_ne (Ne.symm hc)] using hfailed
  | swap c new old =>
    by_cases hc : c = .phase
    · subst hc
      exact h.elim
    · simpa [phaseOf, Action.apply, Function.update_of_ne (Ne.symm hc)] using hfailed

/-- No exchange of the phase expects a failure. -/
theorem InGate.sticky {w : Option Holding} (h : InGate w a) : Sticky a := by
  cases a with
  | load c v => trivial
  | store c v =>
    cases c with
    | phase => exact congrArg Phase.ofWord (h : v = _)
    | _ => trivial
  | exchange c expected new success =>
    cases success with
    | false => cases c <;> trivial
    | true =>
      cases c with
      | phase =>
        show Phase.ofWord expected ≠ .failed
        rcases h with ⟨-, rfl | rfl, -⟩ | (⟨rfl, -⟩ | ⟨rfl, -⟩) | ⟨-, rfl, -⟩ <;> decide
      | _ => trivial
  | swap c new old =>
    cases c with
    | phase => exact h
    | _ => trivial

/-- Every operation of every method keeps a failure. -/
theorem code_sticky (call : Call) : (code call).Only Sticky := by
  by_cases hcall : call = .finishMembershipChange
  · subst hcall
    exact fun _ => ⟨trivial, trivial⟩
  · exact (code_guarded hcall [] rfl).only fun _ _ hok => hok.inGate.sticky

/-! ## Refused calls -/

/-- Any CPU, any call, any time. -/
def openSystem (Tid : Type) : System (fun _ : Cell => Nat) Tid Call Reply Unit where
  code := code
  start _ _ _ := some ()
  finish _ _ _ _ := ()

/-- The methods that report whether the protocol let them through. -/
def Call.Reports : Call → Prop
  | .tryMembershipChange | .begin _ | .admitRequest _ _ | .quiesce _ _ | .startReplace _
  | .mayWrite _ | .publish _ | .synchronized _ _ | .finish _ | .reusable _ => True
  | _ => False

def Reply.IsFailure : Reply → Prop
  | .flag b => b = false
  | .begun r => ∃ error, r = .error error
  | .result r => ∃ error, r = .error error
  | _ => False

/-- The call began when the phase was already failed. -/
def Late {Tid : Type} (i : Cpu Tid) : Prop := i.call.Reports ∧ phaseOf i.entry = .failed

/-- What a late call may do: nothing, and report a failure. -/
def Refused {Tid : Type} (m m' : Memory) : Event (fun _ : Cell => Nat) Tid Call Reply → Prop
  | .start _ => True
  | .act i _ => Late i → m' = m
  | .ret i r => Late i → r.IsFailure

def failureOutline (Tid : Type) : Outline (fun _ : Cell => Nat) Tid Call Reply Unit where
  Inv _ := True
  Guar σ ev σ' := (phaseOf σ.mem = .failed → phaseOf σ'.mem = .failed) ∧ Refused σ.mem σ'.mem ev
  Rely _ σ σ' := phaseOf σ.mem = .failed → phaseOf σ'.mem = .failed
  rely_refl _ _ h := h
  rely_trans _ _ _ _ _ h h' hfailed := h' (h hfailed)

section Refused

variable {Tid : Type} {i : Cpu Tid}

theorem failureOutline_silent : (failureOutline Tid).Silent := by
  intro i σ a hread _
  have hsame : (σ.acted i a).mem = σ.mem := hread.apply_eq σ.mem
  have hkeeps : phaseOf σ.mem = .failed → phaseOf (σ.acted i a).mem = .failed := by
    rw [hsame]
    exact id
  exact ⟨⟨trivial, ⟨hkeeps, fun _ => hsame⟩, fun _ _ => hkeeps⟩, hkeeps⟩

abbrev FailedNow (σ : Shared (fun _ : Cell => Nat) Tid Call Reply Unit) : Prop :=
  phaseOf σ.mem = .failed

/-- What a program does once the phase is failed. -/
abbrev Failing {A : Type} (i : Cpu Tid) (p : Ops A) := (failureOutline Tid).Triple i FailedNow p

theorem stable_failedNow : (failureOutline Tid).Stable i.tid FailedNow :=
  fun _ _ _ _ hrely hfailed => hrely hfailed

theorem load_failed (c : Cell) :
    Failing i (load c) fun v σ => (c = .phase → Phase.ofWord v = .failed) ∧ FailedNow σ := by
  refine .read failureOutline_silent stable_failedNow
    (fun v => (Outline.Stable.const _).and stable_failedNow) fun σ _ hfailed => ⟨?_, hfailed⟩
  rintro rfl
  exact hfailed

theorem phase_failed : Failing i phase fun p _ => p = .failed := by
  refine (load_failed .phase).bind fun v => .pre_const fun hv => ?_
  exact .ret stable_failedNow fun _ _ _ => hv rfl

theorem check_failed (id e : Nat) (expected : Phase) :
    Failing i (check id e expected).run fun r _ => r = .error .failed := by
  refine .run_bind_lift phase_failed fun p σ _ hp => ?_
  rw [if_pos hp]
  exact fun _ _ _ => rfl

/-- A method whose first act is the check fails as the check does. -/
theorem checked_failed {id e : Nat} {expected : Phase} {rest : Unit → Result Unit} :
    Failing i (do return Reply.result (← (check id e expected >>= rest).run) : Ops Reply)
      fun r _ => r.IsFailure := by
  have hrun : Failing i (check id e expected >>= rest).run fun r _ => r = .error .failed := by
    refine .run_bind (check_failed id e expected) (fun _ _ _ hok => nomatch hok) fun error => ?_
    exact .ret (Outline.Stable.const _) fun _ _ herror => herror
  refine hrun.bind fun r => .ret (Outline.Stable.const _) fun _ _ hr => ?_
  exact ⟨.failed, hr⟩

/-- A program that goes on from the phase goes on from the failure. -/
theorem phase_bind_failed {A : Type} {f : Phase → Ops A}
    {Q : A → Shared (fun _ : Cell => Nat) Tid Call Reply Unit → Prop}
    (h : (failureOutline Tid).Triple i (fun _ => True) (f .failed) Q) :
    Failing i (phase >>= f) Q := by
  refine phase_failed.bind fun p σ hinv hp => ?_
  rw [hp]
  exact h σ hinv trivial

theorem tryMembershipChange_failed : Failing i tryMembershipChange fun b _ => b = false :=
  phase_bind_failed (.ret (.const _) fun _ _ _ => rfl)

theorem begin_failed (members : Nat) :
    Failing i (begin members).run fun r _ => r = .error .failed := by
  refine .run_bind_lift phase_failed fun p σ _ hp => ?_
  rw [if_pos hp]
  exact fun _ _ _ => rfl

theorem mayWrite_failed (e : Nat) : Failing i (mayWrite e) fun b _ => b = false := by
  refine (check_failed 0 e .replacing).bind fun r σ _ hr => ?_
  subst hr
  exact fun _ _ _ => rfl

theorem reusable_failed (e : Nat) : Failing i (reusable e) fun b _ => b = false := by
  have hfalse : Failing i (pure false) fun b _ => b = false :=
    .ret stable_failedNow fun _ _ _ => rfl
  unfold reusable
  split
  · exact hfalse
  -- The epoch may still match; the phase cannot be complete.
  refine (load_failed .epoch).bind fun now => .pre_const fun _ => ?_
  split
  · exact hfalse
  · exact phase_bind_failed (.ret (.const _) fun _ _ _ => rfl)

theorem code_failed {call : Call} (hreports : call.Reports) :
    Failing i (code call) fun r _ => r.IsFailure := by
  have hflag : ∀ {p : Ops Bool}, Failing i p (fun b _ => b = false) →
      Failing i (do return Reply.flag (← p) : Ops Reply) fun r _ => r.IsFailure :=
    fun h => h.bind fun _ => .ret (.const _) fun _ _ hb => hb
  cases call with
  | tryMembershipChange => exact hflag tryMembershipChange_failed
  | begin members =>
    exact (begin_failed members).bind fun _ => .ret (.const _) fun _ _ hr => ⟨.failed, hr⟩
  | admitRequest id e | quiesce id e | startReplace e | publish e | synchronized id e | finish e =>
    exact checked_failed
  | mayWrite e => exact hflag (mayWrite_failed e)
  | reusable e => exact hflag (reusable_failed e)
  | _ => exact hreports.elim

/-- A call that is not late only has to keep a failure. -/
theorem does_of_sticky (hlate : ¬ Late i) {σ : Shared (fun _ : Cell => Nat) Tid Call Reply Unit}
    (henabled : a.Enabled σ.mem) (ha : Sticky a) :
    (failureOutline Tid).Does i σ a := by
  have hkeeps : phaseOf σ.mem = .failed → phaseOf (σ.acted i a).mem = .failed :=
    ha.keeps henabled
  exact ⟨trivial, ⟨hkeeps, fun h => absurd h hlate⟩, fun _ _ => hkeeps⟩

theorem failureOutline_proves : (failureOutline Tid).Proves (openSystem Tid) := by
  intro σ t call env _ _
  refine ⟨⟨trivial, ⟨id, trivial⟩, fun _ _ => id⟩, ?_⟩
  by_cases hlate : Late (σ.invoke t call)
  · have hsafe := code_failed (i := σ.invoke t call) hlate.1
      (σ.started (σ.invoke t call) env) trivial hlate.2
    exact hsafe.post fun r σ' _ hr => ⟨trivial, ⟨id, fun _ => hr⟩, fun _ _ => id⟩
  · have hsafe := Outline.Triple.of_forall (O := failureOutline Tid) (code_sticky call)
      (fun σ' a _ henabled ha => does_of_sticky hlate henabled ha)
      (σ.started (σ.invoke t call) env) trivial trivial
    exact hsafe.post fun r σ' _ _ => ⟨trivial, ⟨id, fun h => absurd h hlate⟩, fun _ _ => id⟩

end Refused

/-! ## The theorem -/

/-- Failure is sticky, in every interleaving of any CPUs: from a reachable state with a failed phase
only states with a failed phase follow, and a call of a reporting method that began in such a state
writes nothing and returns a failure. -/
theorem failure_sticky {Tid : Type} [DecidableEq Tid]
    {c : Config (fun _ : Cell => Nat) Tid Call Reply Unit}
    (hreach : Reach (openSystem Tid) (initial Tid Unit ()) c) :
    (phaseOf c.shared.mem = .failed →
        ∀ c', Steps (openSystem Tid) c c' → phaseOf c'.shared.mem = .failed) ∧
      ∀ ev c', Step (openSystem Tid) c ev c' → Refused c.shared.mem c'.shared.mem ev := by
  have hguar : ∀ {d ev d'}, Reach (openSystem Tid) (initial Tid Unit ()) d →
      Step (openSystem Tid) d ev d' → (failureOutline Tid).Guar d.shared ev d'.shared :=
    fun hd hstep => Outline.sound_step failureOutline_proves trivial hd hstep
  refine ⟨?_, fun ev c' hstep => (hguar hreach hstep).2⟩
  intro hfailed c' hsteps
  -- Along the run, every state is reachable and failed.
  induction hsteps with
  | refl => exact hfailed
  | tail hsteps hstep ih =>
    obtain ⟨ev, hstep⟩ := hstep
    exact (hguar (hreach.trans hsteps) hstep).1 ih

/-- CPU 0 fails the protocol and then tries to begin an update. -/
def failThenBegin : List (Move Nat Call) :=
  [.start 0 .fail, .next 0, .next 0, .start 0 (.begin 3), .next 0]

theorem failure_sticky_failThenBegin :
    ∃ c ev c', Config.run (openSystem Nat) ⟨initial Nat Unit (), fun _ => none⟩ failThenBegin =
        some c ∧ Config.move (openSystem Nat) c (.next 0) = some (ev, c') ∧
      phaseOf c'.shared.mem = .failed ∧ Refused c.shared.mem c'.shared.mem ev ∧
      ∃ i, ev = .ret i (.begun (.error .failed)) ∧ Late i := by
  have happly : ∀ c ev c', Config.run (openSystem Nat) ⟨initial Nat Unit (), fun _ => none⟩
      failThenBegin = some c → Config.move (openSystem Nat) c (.next 0) = some (ev, c') →
      phaseOf c.shared.mem = .failed →
      phaseOf c'.shared.mem = .failed ∧ Refused c.shared.mem c'.shared.mem ev := by
    intro c ev c' hrun hmove hfailed
    have h := failure_sticky (Config.run_steps hrun)
    exact ⟨h.1 hfailed c' (.single ⟨ev, Config.move_step hmove⟩),
      h.2 ev c' (Config.move_step hmove)⟩
  have h := happly _ _ _ rfl rfl rfl
  exact ⟨_, _, _, rfl, rfl, h.1, h.2, _, rfl, trivial, rfl⟩

end Tvisor.TlbUpdate
