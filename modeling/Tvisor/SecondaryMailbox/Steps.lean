/-
# Tvisor.SecondaryMailbox.Steps -- what the mailbox does, whatever it reads

Facts about the methods alone, for code that has mailboxes among other things. Every write to the
lifecycle word is an exchange along an edge of the protocol, and a method that succeeds has made the
loads and exchanges that its name promises.
-/
import Tvisor.Lib.Traces
import Tvisor.SecondaryMailbox.Protocol

namespace Tvisor.SecondaryMailbox

open Interleave Fallible

abbrev Operation := Action fun _ : Cell => Nat

/-- No edge leads back behind `Starting`. -/
theorem Edge.started {s s' : CpuState} (h : Edge s s') : 2 ≤ s.toWord → 2 ≤ s'.toWord := by
  cases h <;> decide

/-! ## Writes -/

/-- Loads and exchanges only, and of the lifecycle word only along an edge. -/
def Orderly : Operation → Prop
  | .load _ _ => True
  | .exchange .state expected new _ => ∃ s s', Edge s s' ∧ expected = s.toWord ∧ new = s'.toWord
  | .exchange _ _ _ _ => True
  | .store _ _ | .swap _ _ _ => False

theorem orderly_of_load {a : Operation} (h : a.IsLoad) : Orderly a := by
  obtain ⟨c, v, rfl⟩ := h
  trivial

theorem toWord_of_ofWord {v : Nat} {s : CpuState} (h : CpuState.ofWord v = some s) :
    s.toWord = v := by
  rcases v with _ | _ | _ | _ | _ | _ | _ <;> cases h <;> rfl

section Loads

/- A method that succeeds has made exactly these loads. -/
variable {ok : List Operation → Operation → Prop} {past : List Operation}
  (hok : ∀ past a, a.IsLoad → ok past a)

include hok

theorem observeReady_along (g : Nat) :
    (observeReady g).Along ok
      (fun b past' => b = true → g ≠ 0 ∧ past' = .load .ready g :: past) past := by
  unfold observeReady
  split
  · exact nofun
  · rename_i hg
    refine fun v => ⟨hok _ _ ⟨_, v, rfl⟩, fun hv => ⟨hg, ?_⟩⟩
    rw [beq_iff_eq.mp hv]

theorem check_along (g : Nat) :
    (check g).run.Along ok
      (fun r past' => ∀ u, r = .ok u → g ≠ 0 ∧ past' = .load .ready g :: past) past := by
  refine .lifted ((observeReady_along hok g).bind fun b past' h => ?_)
  split
  · rename_i hb
    exact fun _ _ => h hb
  · exact nofun

theorem lifecycle_along :
    lifecycle.run.Along ok
      (fun r past' => ∀ s, r = .ok s → past' = .load .state s.toWord :: past) past := by
  have hload : (load .state).Along ok (fun v past' => past' = .load .state v :: past) past :=
    fun v => ⟨hok _ _ ⟨_, v, rfl⟩, rfl⟩
  refine .lifted (hload.bind fun v past' hpast => ?_)
  split
  · rename_i s hs
    rintro _ ⟨⟩
    rw [toWord_of_ofWord hs, hpast]
  · exact nofun

theorem state_along (g : Nat) :
    (state g).run.Along ok
      (fun r past' => ∀ s, r = .ok s →
        g ≠ 0 ∧ past' = .load .state s.toWord :: .load .ready g :: past) past := by
  refine .run_bind (check_along hok g) (fun u past' h => ?_) fun _ _ _ => nofun
  obtain ⟨hg, rfl⟩ := h u rfl
  exact (lifecycle_along hok).post fun r past' hr s hs => ⟨hg, hr s hs⟩

theorem hasParked_along (g : Nat) :
    (hasParked g).run.Along ok
      (fun r past' => r = .ok true →
        past' = .load .state CpuState.parked.toWord :: .load .ready g :: past) past := by
  refine (state_along hok g).bind fun r past' h => ?_
  rcases r with (e | _) | s
  · exact nofun
  · exact nofun
  · intro hs
    obtain rfl : s = .parked := beq_iff_eq.mp (Except.ok.inj hs)
    exact (h _ rfl).2

omit hok

theorem lifecycle_loads : lifecycle.run.Only Action.IsLoad :=
  (lifecycle_along fun _ _ h => h).only fun _ _ h => h

theorem observeReady_loads (g : Nat) : (observeReady g).Only Action.IsLoad :=
  (observeReady_along (fun _ _ h => h) g).only fun _ _ h => h

theorem check_loads (g : Nat) : (check g).run.Only Action.IsLoad :=
  (check_along (fun _ _ h => h) g).only fun _ _ h => h

theorem state_loads (g : Nat) : (state g).run.Only Action.IsLoad :=
  (state_along (fun _ _ h => h) g).only fun _ _ h => h

theorem hasParked_loads (g : Nat) : (hasParked g).run.Only Action.IsLoad :=
  (hasParked_along (fun _ _ h => h) g).only fun _ _ h => h

theorem entryIsClaimed_loads (g : Nat) : (entryIsClaimed g).run.Only Action.IsLoad :=
  .andThen (check_loads g) fun _ => .liftThen (fun v => ⟨⟨_, v, rfl⟩, trivial⟩) fun _ => trivial

end Loads

section Orderly

/-- What only loads is orderly. -/
theorem orderly_of_loads {A : Type} {p : Ops A} (h : p.Only Action.IsLoad) :
    p.Only Orderly := h.mono fun _ => orderly_of_load

variable {ok : List Operation → Operation → Prop} {past : List Operation}

theorem exchange_along {c : Cell} {expected new : Nat} {e : ProtocolError}
    (hok : ∀ b, ok past (.exchange c expected new b)) :
    (exchange c expected new e).run.Along ok
      (fun r past' => ∀ u, r = .ok u → past' = .exchange c expected new true :: past) past := by
  refine .lifted fun b => ⟨hok b, ?_⟩
  rcases b with _ | _
  · exact nofun
  · exact fun _ _ => rfl

theorem exchange_orderly {c : Cell} {expected new : Nat} {e : ProtocolError}
    (h : ∀ b, Orderly (.exchange c expected new b)) :
    (exchange c expected new e).run.Only Orderly :=
  (exchange_along h).only fun _ _ h => h

theorem markPrepared_orderly : markPrepared.run.Only Orderly :=
  exchange_orderly fun _ => ⟨.offline, .prepared, .prepare, rfl, rfl⟩

theorem transition_along (hok : ∀ past a, Orderly a → ok past a) (g : Nat) {s s' : CpuState}
    (hedge : Edge s s') :
    (transition g s s').run.Along ok
      (fun r past' => ∀ u, r = .ok u →
        past' = .exchange .state s.toWord s'.toWord true :: .load .ready g :: past) past := by
  refine .run_bind (check_along (fun past a h => hok past a (orderly_of_load h)) g)
    (fun u past' h => ?_) fun _ _ _ => nofun
  obtain ⟨_, rfl⟩ := h u rfl
  exact exchange_along fun _ => hok _ _ ⟨s, s', hedge, rfl, rfl⟩

theorem transition_orderly (g : Nat) {s s' : CpuState} (h : Edge s s') :
    (transition g s s').run.Only Orderly :=
  (transition_along (fun _ _ h => h) g h).only fun _ _ h => h

theorem managementFailed_orderly (g : Nat) : (managementFailed g).run.Only Orderly := by
  refine .andThen (orderly_of_loads (state_loads g)) fun s => ?_
  split
  · exact transition_orderly g .failParked
  · exact transition_orderly g .failOnline
  · trivial

theorem publish_orderly (g : Nat) : (publish g).run.Only Orderly := by
  unfold publish
  split
  · trivial
  refine .andThen (orderly_of_loads lifecycle_loads) fun s => ?_
  split
  · trivial
  · exact exchange_orderly fun _ => trivial

theorem claimEntry_orderly (g : Nat) : (claimEntry g).run.Only Orderly := by
  refine .andThen (orderly_of_loads (state_loads g)) fun s => ?_
  split
  · trivial
  · exact .andThen (exchange_orderly fun _ => trivial) fun _ => trivial

theorem code_orderly (call : Call) : (code call).Only Orderly := by
  cases call with
  | lifecycle => exact (orderly_of_loads lifecycle_loads).bind fun _ _ => trivial
  | markPrepared => exact markPrepared_orderly.bind fun _ _ => trivial
  | publish g => exact (publish_orderly g).bind fun _ _ => trivial
  | observeReady g => exact (orderly_of_loads (observeReady_loads g)).bind fun _ _ => trivial
  | state g => exact (orderly_of_loads (state_loads g)).bind fun _ _ => trivial
  | beginStart g => exact (transition_orderly g .start).bind fun _ _ => trivial
  | managementOnline g => exact (transition_orderly g .online).bind fun _ _ => trivial
  | managementPark g => exact (transition_orderly g .rest).bind fun _ _ => trivial
  | managementFailed g => exact (managementFailed_orderly g).bind fun _ _ => trivial
  | claimEntry g => exact (claimEntry_orderly g).bind fun _ _ => trivial
  | park g => exact (transition_orderly g .park).bind fun _ _ => trivial
  | fail g => exact (transition_orderly g .fail).bind fun _ _ => trivial
  | entryIsClaimed g => exact (orderly_of_loads (entryIsClaimed_loads g)).bind fun _ _ => trivial
  | hasParked g => exact (orderly_of_loads (hasParked_loads g)).bind fun _ _ => trivial

end Orderly

end Tvisor.SecondaryMailbox
