/-
# Tvisor.SecondaryMailbox.Protocol -- the lifecycle under every interleaving

A method looks at one atomic and then exchanges another, and anything may happen in between. Three
things cannot: a published generation does not change, a claimed entry stays claimed, and the
lifecycle word only moves along the edges below. That is enough: a check that passed stays true up
to the exchange it guards, and the claim that `park` and `fail` need stays made.
-/
import Tvisor.SecondaryMailbox

namespace Tvisor.SecondaryMailbox

open Interleave Fallible

/-! ## What the protocol promises -/

/-- The moves of the lifecycle. -/
inductive Edge : CpuState → CpuState → Prop
  | prepare : Edge .offline .prepared
  | start : Edge .prepared .starting
  | park : Edge .starting .parked
  | fail : Edge .starting .failed
  | online : Edge .parked .online
  | rest : Edge .online .parked
  | failParked : Edge .parked .failed
  | failOnline : Edge .online .failed

/-- The generation that a call names, for the calls that are bound to the published one. -/
def Call.generation : Call → Option Nat
  | .lifecycle | .markPrepared | .publish _ => none
  | .observeReady g | .state g | .beginStart g | .managementOnline g | .managementPark g
  | .managementFailed g | .claimEntry g | .park g | .fail g | .entryIsClaimed g | .hasParked g =>
      some g

variable {Tid : Type}

abbrev Cpu (Tid : Type) := Invocation (fun _ : Cell => Nat) Tid Call

abbrev Happening (Tid : Type) := Event (fun _ : Cell => Nat) Tid Call Reply

abbrev World (Tid : Type) := Shared (fun _ : Cell => Nat) Tid Call Reply Claims

/-- The lifecycle stays or takes an edge. -/
def Moves (m m' : Memory) : Prop :=
  m' .state = m .state ∨ ∃ s s', Edge s s' ∧ m .state = s.toWord ∧ m' .state = s'.toWord

/-- Only an operation writes, and where its call names a generation, that is the published one. -/
def Authorized (m m' : Memory) : Happening Tid → Prop
  | .act i _ => ∀ g, i.call.generation = some g → m' ≠ m → g ≠ 0 ∧ m .ready = g
  | .start _ | .ret _ _ => m' = m

/-- What every step keeps. -/
structure Keeps (σ σ' : World Tid) : Prop where
  history : σ.history ⊆ σ'.history
  ready : σ.mem .ready ≠ 0 → σ'.mem .ready = σ.mem .ready
  claimed : σ.mem .entryClaimed = 1 → σ'.mem .entryClaimed = 1

/-- What every step does. -/
structure Legal (σ : World Tid) (ev : Happening Tid) (σ' : World Tid) : Prop where
  moves : Moves σ.mem σ'.mem
  keeps : Keeps σ σ'
  authorized : Authorized σ.mem σ'.mem ev

/-- The call has claimed the entry. -/
def Claimed (i : Cpu Tid) (history : List (Happening Tid)) : Prop :=
  .act i (.exchange .entryClaimed 0 1 true) ∈ history

/-- The invariant. The last four fields are about the entry: a claim in the client's hands and a
claim in the history are backed by the flag, one call at most has claimed, and a call that
returned a claim is that call. -/
structure Consistent (σ : World Tid) : Prop where
  word : ∃ s : CpuState, σ.mem .state = s.toWord
  started : 2 ≤ σ.mem .state → σ.mem .ready ≠ 0
  entered : 3 ≤ σ.mem .state → σ.mem .entryClaimed = 1
  held : ∀ claim ∈ σ.env, σ.mem .entryClaimed = 1
  claimed : ∀ i, Claimed i σ.history → σ.mem .entryClaimed = 1
  unique : ∀ i j, Claimed i σ.history → Claimed j σ.history → i = j
  returned : ∀ i claim, .ret i (.claim (.ok claim)) ∈ σ.history → Claimed i σ.history

def protocol (Tid : Type) : Outline (fun _ : Cell => Nat) Tid Call Reply Claims where
  Inv := Consistent
  Guar := Legal
  Rely _ := Keeps
  rely_refl _ _ := ⟨fun _ h => h, fun _ => rfl, id⟩
  rely_trans _ _ _ _ _ h h' :=
    ⟨fun _ hev => h'.history (h.history hev),
      fun hready => (h'.ready (h.ready hready ▸ hready)).trans (h.ready hready),
      fun hclaimed => h'.claimed (h.claimed hclaimed)⟩

variable {t : Tid} {g : Nat}

section Steps

variable {i : Cpu Tid} {σ : World Tid} {a : Action fun _ : Cell => Nat}

/-! ## Operations -/

theorem claimed_cons {j : Cpu Tid} {ev : Happening Tid} (history : List (Happening Tid))
    (hev : ev ≠ .act j (.exchange .entryClaimed 0 1 true)) :
    Claimed j (ev :: history) ↔ Claimed j history :=
  ⟨fun h => (List.mem_cons.mp h).resolve_left hev.symm, List.mem_cons_of_mem _⟩

theorem claimed_acted {j : Cpu Tid} (ha : a ≠ .exchange .entryClaimed 0 1 true) :
    Claimed j (σ.acted i a).history ↔ Claimed j σ.history := by
  refine claimed_cons _ fun heq => ?_
  cases heq
  exact ha rfl

/-- An operation that is no claim leaves the history's side of the invariant as it was. -/
theorem Consistent.acted (h : Consistent σ) (ha : a ≠ .exchange .entryClaimed 0 1 true)
    (hkeeps : σ.mem .entryClaimed = 1 → a.apply σ.mem .entryClaimed = 1)
    (hword : ∃ s : CpuState, a.apply σ.mem .state = s.toWord)
    (hstarted : 2 ≤ a.apply σ.mem .state → a.apply σ.mem .ready ≠ 0)
    (hentered : 3 ≤ a.apply σ.mem .state → a.apply σ.mem .entryClaimed = 1) :
    Consistent (σ.acted i a) where
  word := hword
  started := hstarted
  entered := hentered
  held claim hclaim := hkeeps (h.held claim hclaim)
  claimed j hj := hkeeps (h.claimed j ((claimed_acted ha).mp hj))
  unique j k hj hk := h.unique j k ((claimed_acted ha).mp hj) ((claimed_acted ha).mp hk)
  returned j claim hret := by
    rcases List.mem_cons.mp hret with heq | hmem
    · cases heq
    · exact (claimed_acted ha).mpr (h.returned j claim hmem)

theorem Legal.does (hinv : Consistent (σ.acted i a)) (hlegal : Legal σ (.act i a) (σ.acted i a)) :
    (protocol Tid).Does i σ a :=
  ⟨hinv, hlegal, fun _ _ => hlegal.keeps⟩

theorem protocol_silent : (protocol Tid).Silent := by
  intro i σ a hread hinv
  have hsame : a.apply σ.mem = σ.mem := hread.apply_eq σ.mem
  have hkeeps : Keeps σ (σ.acted i a) := by
    refine ⟨fun _ => List.mem_cons_of_mem _, fun _ => ?_, fun hclaimed => ?_⟩
    · exact congrFun hsame .ready
    · exact (congrFun hsame .entryClaimed).trans hclaimed
  have hclaim : a ≠ .exchange .entryClaimed 0 1 true := by
    rintro rfl
    exact Bool.noConfusion hread
  refine ⟨Legal.does (hinv.acted hclaim hkeeps.claimed ?_ ?_ ?_) ⟨.inl ?_, hkeeps, ?_⟩, hkeeps⟩
  · rw [hsame]
    exact hinv.word
  · rw [hsame]
    exact hinv.started
  · rw [hsame]
    exact hinv.entered
  · exact congrFun hsame .state
  · exact fun _ _ hchanged => absurd hsame hchanged

/-- A move of the lifecycle: the generation is published before `Starting`, the entry is claimed
before anything after it. -/
theorem does_move {s s' : CpuState} (hinv : Consistent σ) (hedge : Edge s s')
    (hstate : σ.mem .state = s.toWord) (hentry : s = .starting → σ.mem .entryClaimed = 1)
    (hready : s = .prepared → σ.mem .ready ≠ 0)
    (hauth : ∀ g, i.call.generation = some g → g ≠ 0 ∧ σ.mem .ready = g) :
    (protocol Tid).Does i σ (.exchange .state s.toWord s'.toWord true) := by
  have hstarted := hinv.started
  have hentered := hinv.entered
  rw [hstate] at hstarted hentered
  refine Legal.does (hinv.acted nofun id ⟨s', rfl⟩ ?_ ?_)
    ⟨.inr ⟨s, s', hedge, hstate, rfl⟩, ⟨fun _ => List.mem_cons_of_mem _, fun _ => rfl, id⟩,
      fun g hg _ => hauth g hg⟩
  · show 2 ≤ s'.toWord → σ.mem .ready ≠ 0
    cases hedge with
    | prepare => exact fun h => absurd h (by decide)
    | start => exact fun _ => hready rfl
    | _ => exact fun _ => hstarted (by decide)
  · show 3 ≤ s'.toWord → σ.mem .entryClaimed = 1
    cases hedge with
    | prepare | start => exact fun h => absurd h (by decide)
    | park => exact fun _ => hentry rfl
    | fail => exact fun _ => hentry rfl
    | _ => exact fun _ => hentered (by decide)

theorem does_publish {generation : Nat} (hinv : Consistent σ) (hready : σ.mem .ready = 0)
    (hgeneration : generation ≠ 0) (hcall : i.call.generation = none) :
    (protocol Tid).Does i σ (.exchange .ready 0 generation true) :=
  Legal.does (hinv.acted nofun id hinv.word (fun _ => hgeneration) hinv.entered)
    ⟨.inl rfl, ⟨fun _ => List.mem_cons_of_mem _, fun h => absurd hready h, id⟩,
      fun _ hg => nomatch hcall.symm.trans hg⟩

theorem does_claim (hinv : Consistent σ) (hfree : σ.mem .entryClaimed = 0)
    (hauth : ∀ g, i.call.generation = some g → g ≠ 0 ∧ σ.mem .ready = g) :
    (protocol Tid).Does i σ (.exchange .entryClaimed 0 1 true) := by
  have hnone : ∀ j, ¬ Claimed j σ.history := by
    intro j hj
    have := hinv.claimed j hj
    omega
  have hfirst : ∀ j, Claimed j (σ.acted i (.exchange .entryClaimed 0 1 true)).history → j = i := by
    intro j hj
    rcases List.mem_cons.mp hj with heq | hmem
    · cases heq
      rfl
    · exact absurd hmem (hnone j)
  refine Legal.does ⟨hinv.word, hinv.started, fun _ => rfl, fun _ _ => rfl, fun _ _ => rfl,
      fun j k hj hk => (hfirst j hj).trans (hfirst k hk).symm, fun j claim hret => ?_⟩
    ⟨.inl rfl, ⟨fun _ => List.mem_cons_of_mem _, fun _ => rfl, fun _ => rfl⟩,
      fun g hg _ => hauth g hg⟩
  rcases List.mem_cons.mp hret with heq | hmem
  · cases heq
  · exact absurd (hinv.returned j claim hmem) (hnone j)

/-! ## Methods -/

theorem stable_published :
    (protocol Tid).Stable t fun σ => g ≠ 0 ∧ σ.mem .ready = g := by
  rintro σ σ' _ _ hkeeps ⟨hg, hready⟩
  exact ⟨hg, (hkeeps.ready (hready ▸ hg)).trans hready⟩

theorem stable_entered : (protocol Tid).Stable t fun σ => σ.mem .entryClaimed = 1 :=
  fun _ _ _ _ hkeeps hclaimed => hkeeps.claimed hclaimed

theorem stable_claimed : (protocol Tid).Stable t fun σ => Claimed i σ.history :=
  fun _ _ _ _ hkeeps hclaimed => hkeeps.history hclaimed

variable {P Q : World Tid → Prop}

/-- An exchange that is good where it takes place. -/
theorem exchange_triple {c : Cell} {expected new : Nat} {e : ProtocolError}
    (hP : (protocol Tid).Stable i.tid P) (hQ : (protocol Tid).Stable i.tid Q)
    (hyes : ∀ σ, Consistent σ → P σ → σ.mem c = expected →
      (protocol Tid).Does i σ (.exchange c expected new true) ∧
        Q (σ.acted i (.exchange c expected new true))) :
    (protocol Tid).Triple i P (exchange c expected new e).run fun r σ => r = .ok () → Q σ := by
  have hop : (protocol Tid).Triple i P (compareExchange c expected new)
      fun b σ => b = true → Q σ := by
    refine .tryExchange protocol_silent hP (fun b => .imp fun _ => hQ) ?_ (fun _ _ _ _ => nofun)
    exact fun σ hinv hPσ heq => ⟨(hyes σ hinv hPσ heq).1, fun _ => (hyes σ hinv hPσ heq).2⟩
  refine .run_bind_lift hop fun b => ?_
  split
  · rename_i hb
    exact .ret (.imp fun _ => hQ) fun _ _ h _ => h hb
  · exact .ret (.imp fun _ => hQ) fun _ _ _ => nofun

theorem observeReady_triple (g : Nat) (hP : (protocol Tid).Stable i.tid P) :
    (protocol Tid).Triple i P (observeReady g)
      fun b σ => P σ ∧ (b = true → g ≠ 0 ∧ σ.mem .ready = g) := by
  unfold observeReady
  split
  · exact .ret hP fun _ _ hPσ => ⟨hPσ, nofun⟩
  · rename_i hg
    have hread : (protocol Tid).Triple i P (load .ready)
        fun v σ => P σ ∧ (v = g → g ≠ 0 ∧ σ.mem .ready = g) :=
      .read protocol_silent hP (fun _ => hP.and (.imp fun _ => stable_published))
        fun σ _ hPσ => ⟨hPσ, fun hv => ⟨hg, hv⟩⟩
    refine hread.bind fun v => .ret (hP.and (.imp fun _ => stable_published)) ?_
    exact fun σ _ h => ⟨h.1, fun hv => h.2 (beq_iff_eq.mp hv)⟩

/-- A check that passes has seen the published generation, which stays. -/
theorem check_triple (g : Nat) (hP : (protocol Tid).Stable i.tid P) :
    (protocol Tid).Triple i P (check g).run
      fun r σ => P σ ∧ (r = .ok () → g ≠ 0 ∧ σ.mem .ready = g) := by
  refine .run_bind_lift (observeReady_triple g hP) fun b => ?_
  have hstable : (protocol Tid).Stable i.tid fun σ => P σ ∧ (b = true → g ≠ 0 ∧ σ.mem .ready = g) :=
    hP.and (.imp fun _ => stable_published)
  split
  · rename_i hb
    exact .ret hstable fun _ _ h => ⟨h.1, fun _ => h.2 hb⟩
  · exact .ret hstable fun _ _ h => ⟨h.1, nofun⟩

theorem load_triple (c : Cell) (hP : (protocol Tid).Stable i.tid P) :
    (protocol Tid).Triple i P (load c) fun _ => P :=
  .read protocol_silent hP (fun _ => hP) fun _ _ hPσ => hPσ

theorem lifecycle_triple (hP : (protocol Tid).Stable i.tid P) :
    (protocol Tid).Triple i P lifecycle.run fun _ => P := by
  refine .run_bind_lift (load_triple .state hP) fun v => ?_
  split <;> exact .ret hP fun _ _ hPσ => hPσ

theorem state_triple (g : Nat) (hP : (protocol Tid).Stable i.tid P) :
    (protocol Tid).Triple i P (state g).run
      fun r σ => P σ ∧ (∀ s, r = .ok s → g ≠ 0 ∧ σ.mem .ready = g) := by
  refine .run_bind (check_triple g hP) (fun _ => ?_) fun e => ?_
  · refine (lifecycle_triple (hP.and (.imp fun _ => stable_published))).post ?_
    exact fun _ _ _ h => ⟨h.1, fun _ _ => h.2 rfl⟩
  · exact .ret (hP.and (.imp fun _ => stable_published)) fun _ _ h => ⟨h.1, nofun⟩

theorem transition_triple {s s' : CpuState} (hedge : Edge s s')
    (hcall : i.call.generation = some g) :
    (protocol Tid).Triple i (fun σ => s = .starting → σ.mem .entryClaimed = 1)
      (transition g s s').run fun _ _ => True := by
  have hentry : (protocol Tid).Stable i.tid fun σ => s = .starting → σ.mem .entryClaimed = 1 :=
    .imp fun _ => stable_entered
  refine .run_bind (check_triple g hentry) (fun _ => ?_) fun _ => ?_
  · refine .post (exchange_triple (hentry.and (.imp fun _ => stable_published)) (.const True) ?_)
      fun _ _ _ _ => trivial
    rintro σ hinv ⟨hentered, hpublished⟩ hstate
    obtain ⟨hg, hready⟩ := hpublished rfl
    refine ⟨does_move hinv hedge hstate hentered (fun _ => hready ▸ hg) fun g' hg' => ?_, trivial⟩
    rw [hcall] at hg'
    cases hg'
    exact ⟨hg, hready⟩
  · exact .ret (hentry.and (.imp fun _ => stable_published)) fun _ _ _ => trivial

theorem markPrepared_triple (hcall : i.call.generation = none) :
    (protocol Tid).Triple i (fun _ => True) markPrepared.run fun _ _ => True := by
  refine .post (exchange_triple (.const True) (.const True) fun σ hinv _ hstate => ⟨?_, trivial⟩)
    fun _ _ _ _ => trivial
  exact does_move hinv .prepare hstate nofun nofun fun g hg => nomatch hcall.symm.trans hg

theorem publish_triple (hcall : i.call.generation = none) :
    (protocol Tid).Triple i (fun _ => True) (publish g).run fun _ _ => True := by
  unfold publish
  split
  · exact .ret (.const _) fun _ _ _ => trivial
  rename_i hg
  refine .run_bind (lifecycle_triple (.const True)) (fun s => ?_)
    fun _ => .ret (.const _) fun _ _ h => h
  split
  · exact .ret (.const _) fun _ _ _ => trivial
  · refine .post (exchange_triple (.const True) (.const True) fun σ hinv _ hready => ⟨?_, trivial⟩)
      fun _ _ _ _ => trivial
    exact does_publish hinv hready hg hcall

theorem managementFailed_triple (hcall : i.call.generation = some g) :
    (protocol Tid).Triple i (fun _ => True) (managementFailed g).run fun _ _ => True := by
  have hstate := (state_triple (i := i) g (.const True)).post fun _ _ _ _ => trivial
  refine .run_bind (Q := fun _ _ => True) hstate (fun s => ?_)
    fun _ => .ret (.const _) fun _ _ h => h
  split
  · exact (transition_triple .failParked hcall).pre fun _ _ _ => nofun
  · exact (transition_triple .failOnline hcall).pre fun _ _ _ => nofun
  · exact .ret (.const _) fun _ _ _ => trivial

/-- The call that gets the claim is the one that set the flag. -/
theorem claimEntry_triple (hcall : i.call.generation = some g) :
    (protocol Tid).Triple i (fun _ => True) (claimEntry g).run
      fun r σ => ∀ claim, r = .ok claim → Claimed i σ.history ∧ σ.mem .entryClaimed = 1 := by
  have hseen : ∀ r : Except (Stop ProtocolError) CpuState, (protocol Tid).Stable i.tid
      fun σ => True ∧ ∀ s, r = .ok s → g ≠ 0 ∧ σ.mem .ready = g :=
    fun r => (Outline.Stable.const _).and (.all fun _ => .imp fun _ => stable_published)
  refine .run_bind (state_triple g (.const True)) (fun s => ?_)
    fun e => .ret (hseen _) fun _ _ _ => nofun
  split
  · exact .ret (hseen _) fun _ _ _ => nofun
  have hclaims : (protocol Tid).Stable i.tid
      fun σ => Claimed i σ.history ∧ σ.mem .entryClaimed = 1 := stable_claimed.and stable_entered
  refine .run_bind (exchange_triple (hseen _) hclaims ?_) (fun _ => ?_) fun e => ?_
  · rintro σ hinv ⟨_, hpublished⟩ hfree
    refine ⟨does_claim hinv hfree fun g' hg' => ?_, List.mem_cons_self, rfl⟩
    rw [hcall] at hg'
    cases hg'
    exact hpublished s rfl
  · exact .ret (.imp fun _ => hclaims) fun _ _ h _ _ => h rfl
  · exact .ret (.imp fun _ => hclaims) fun _ _ _ => nofun

theorem entryIsClaimed_triple (g : Nat) :
    (protocol Tid).Triple i (fun _ => True) (entryIsClaimed g).run fun _ _ => True := by
  have hcheck := (check_triple (i := i) g (.const True)).post fun _ _ _ _ => trivial
  refine .run_bind (Q := fun _ _ => True) hcheck (fun _ => ?_)
    fun _ => .ret (.const _) fun _ _ h => h
  exact .run_bind_lift (load_triple .entryClaimed (.const True))
    fun _ => .ret (.const _) fun _ _ h => h

theorem hasParked_triple (g : Nat) :
    (protocol Tid).Triple i (fun _ => True) (hasParked g).run fun _ _ => True := by
  refine .bind (Q := fun _ _ => True) ((state_triple g (.const True)).post fun _ _ _ _ => trivial)
    fun r => ?_
  split <;> exact .ret (.const _) fun _ _ h => h

end Steps

/-! ## Calls -/

variable {call : Call} {claims : Claims}

section Calls

variable {i : Cpu Tid} {σ : World Tid}

/-- What a call may assume of the client. -/
def Entitled (σ : World Tid) : Call → Prop
  | .park _ | .fail _ => σ.mem .entryClaimed = 1
  | _ => True

/-- What a call owes with its reply. -/
def Owed (i : Cpu Tid) (r : Reply) (σ : World Tid) : Prop :=
  ∀ claim, r = .claim (.ok claim) → Claimed i σ.history ∧ σ.mem .entryClaimed = 1

theorem code_triple (hcall : i.call = call) :
    (protocol Tid).Triple i (fun σ => Entitled σ call) (code call) fun r σ => Owed i r σ := by
  have hgeneration : i.call.generation = call.generation := by rw [hcall]
  -- Only `claim_entry` owes anything.
  have hother : ∀ {A : Type} {P : World Tid → Prop} {p : Ops A} (f : A → Reply),
      (∀ a claim, f a ≠ .claim (.ok claim)) → (protocol Tid).Triple i P p (fun _ _ => True) →
      (protocol Tid).Triple i P (do return f (← p) : Ops Reply) (Owed i) :=
    fun f hf h => h.bind fun a => .ret (.const _) fun _ _ _ claim hr => absurd hr (hf a claim)
  have hresult : ∀ {P : World Tid → Prop} {x : Attempt Unit},
      (protocol Tid).Triple i P x.run (fun _ _ => True) →
      (protocol Tid).Triple i P (do return Reply.result (← x.run) : Ops Reply) (Owed i) :=
    hother Reply.result nofun
  cases call with
  | lifecycle => exact hother .state nofun (lifecycle_triple (.const True))
  | markPrepared => exact hresult (markPrepared_triple hgeneration)
  | publish g => exact hresult (publish_triple hgeneration)
  | observeReady g =>
    exact hother .flag nofun ((observeReady_triple g (.const True)).post fun _ _ _ _ => trivial)
  | state g =>
    exact hother .state nofun ((state_triple g (.const True)).post fun _ _ _ _ => trivial)
  | beginStart g => exact hresult ((transition_triple .start hgeneration).pre fun _ _ _ => nofun)
  | managementOnline g =>
    exact hresult ((transition_triple .online hgeneration).pre fun _ _ _ => nofun)
  | managementPark g => exact hresult ((transition_triple .rest hgeneration).pre fun _ _ _ => nofun)
  | managementFailed g => exact hresult (managementFailed_triple hgeneration)
  | claimEntry g =>
    refine (claimEntry_triple hgeneration).bind fun r => .ret ?_ fun σ _ h claim hr => ?_
    · exact .all fun _ => .imp fun _ => stable_claimed.and stable_entered
    · cases hr
      exact h claim rfl
  | park g => exact hresult ((transition_triple .park hgeneration).pre fun _ _ h _ => h)
  | fail g => exact hresult ((transition_triple .fail hgeneration).pre fun _ _ h _ => h)
  | entryIsClaimed g => exact hother .checked nofun (entryIsClaimed_triple g)
  | hasParked g => exact hother .checked nofun (hasParked_triple g)

/-- Starting and returning write no cell. -/
theorem Legal.quiet {env : Claims} {ev : Happening Tid} (hev : ∀ i a, ev ≠ .act i a) :
    Legal σ ev ⟨σ.mem, env, ev :: σ.history⟩ where
  moves := .inl rfl
  keeps := ⟨fun _ => List.mem_cons_of_mem _, fun _ => rfl, id⟩
  authorized := by
    cases ev with
    | start i => rfl
    | act i a => exact absurd rfl (hev i a)
    | ret i r => rfl

theorem start_mem {claims' : Claims} (h : start claims call = some claims') :
    ∀ claim ∈ claims', claim ∈ claims := by
  have htake : ∀ taken,
      (if taken ∈ claims then some (claims.erase taken) else none) = some claims' →
      ∀ claim ∈ claims', claim ∈ claims := by
    intro taken htaken
    split at htaken
    · cases htaken
      exact fun claim => List.mem_of_mem_erase
    · cases htaken
  cases call with
  | park taken => exact htake taken h
  | fail taken => exact htake taken h
  | _ =>
    cases h
    exact fun _ hmem => hmem

theorem entitled_of_start (hinv : Consistent σ) (h : start σ.env call = some claims) :
    Entitled σ call := by
  have htake : ∀ taken, (if taken ∈ σ.env then some (σ.env.erase taken) else none) = some claims →
      σ.mem .entryClaimed = 1 := by
    intro taken htaken
    split at htaken
    · exact hinv.held taken ‹_›
    · cases htaken
  cases call with
  | park taken => exact htake taken h
  | fail taken => exact htake taken h
  | _ => trivial

theorem started_good (hinv : Consistent σ) (h : start σ.env call = some claims) :
    (protocol Tid).Good t σ (.start (σ.invoke t call)) (σ.started (σ.invoke t call) claims) := by
  have hlegal : Legal σ (.start (σ.invoke t call)) (σ.started (σ.invoke t call) claims) :=
    Legal.quiet nofun
  have hclaimed := fun j => (claimed_cons σ.history (Event.start_ne_act (σ.invoke t call) j _)).mp
  refine ⟨⟨hinv.word, hinv.started, hinv.entered, ?_, ?_, ?_, ?_⟩, hlegal, fun _ _ => hlegal.keeps⟩
  · exact fun claim hclaim => hinv.held claim (start_mem h claim hclaim)
  · exact fun j hj => hinv.claimed j (hclaimed j hj)
  · exact fun j k hj hk => hinv.unique j k (hclaimed j hj) (hclaimed k hk)
  · intro j claim hret
    rcases List.mem_cons.mp hret with heq | hmem
    · cases heq
    · exact List.mem_cons_of_mem _ (hinv.returned j claim hmem)

theorem returned_good {r : Reply} (hinv : Consistent σ) (howed : Owed i r σ) :
    (protocol Tid).Returns (system Tid) i r σ := by
  have hlegal : Legal σ (.ret i r) (σ.returned i r (finish σ.env r)) := Legal.quiet nofun
  have hclaimed := fun j => (claimed_cons σ.history (Event.ret_ne_act i j r _)).mp
  refine ⟨⟨hinv.word, hinv.started, hinv.entered, ?_, ?_, ?_, ?_⟩, hlegal, fun _ _ => hlegal.keeps⟩
  · show ∀ claim ∈ finish σ.env r, σ.mem .entryClaimed = 1
    unfold finish
    split
    · exact fun _ _ => (howed _ rfl).2
    · exact hinv.held
  · exact fun j hj => hinv.claimed j (hclaimed j hj)
  · exact fun j k hj hk => hinv.unique j k (hclaimed j hj) (hclaimed k hk)
  · intro j claim hret
    apply List.mem_cons_of_mem
    rcases List.mem_cons.mp hret with heq | hmem
    · cases heq
      exact (howed claim rfl).1
    · exact hinv.returned j claim hmem

theorem protocol_proves : (protocol Tid).Proves (system Tid) := by
  intro σ t call claims hinv hstart
  have hgood := started_good (t := t) hinv hstart
  refine ⟨hgood, ?_⟩
  have hentitled : Entitled σ call := entitled_of_start hinv hstart
  refine Outline.Safe.post (code_triple rfl _ hgood.inv ?_) fun r σ' hinv' => returned_good hinv'
  cases call <;> exact hentitled

end Calls

theorem consistent_initial : Consistent (initial Tid) where
  word := ⟨.offline, rfl⟩
  started h := absurd (show 2 ≤ 0 from h) (by decide)
  entered h := absurd (show 3 ≤ 0 from h) (by decide)
  held := nofun
  claimed := nofun
  unique := nofun
  returned := nofun

/-! ## The theorem -/

/-- The state that a reader of this memory sees. -/
def lifecycleOf (m : Memory) : Option CpuState := CpuState.ofWord (m .state)

def EntersStarting (m m' : Memory) : Prop :=
  lifecycleOf m ≠ some .starting ∧ lifecycleOf m' = some .starting

theorem lifecycleOf_eq {m : Memory} {s : CpuState} (h : m .state = s.toWord) :
    lifecycleOf m = some s := by
  rw [lifecycleOf, h, CpuState.ofWord_toWord]

theorem Moves.failed {m m' : Memory} (h : Moves m m') (hfailed : m .state = 5) : m' .state = 5 := by
  rcases h with hsame | ⟨s, s', hedge, hs, hs'⟩
  · rw [hsame, hfailed]
  · cases hedge <;> simp_all [CpuState.toWord]

theorem Moves.started {m m' : Memory} (h : Moves m m') (hstarted : 2 ≤ m .state) :
    2 ≤ m' .state := by
  rcases h with hsame | ⟨s, s', hedge, hs, hs'⟩
  · rwa [hsame]
  · cases hedge <;> simp_all [CpuState.toWord]

/-- `Starting` is entered from `Prepared` only. -/
theorem Moves.enters {m m' : Memory} (h : Moves m m') (henters : EntersStarting m m') :
    m .state = 1 ∧ m' .state = 2 := by
  obtain ⟨hbefore, hafter⟩ := henters
  rcases h with hsame | ⟨s, s', hedge, hs, hs'⟩
  · rw [lifecycleOf, hsame] at hafter
    exact absurd hafter hbefore
  · rw [lifecycleOf_eq hs', Option.some.injEq] at hafter
    subst hafter
    cases hedge
    exact ⟨hs, hs'⟩

section Runs

variable [DecidableEq Tid] {c d : Config (fun _ : Cell => Nat) Tid Call Reply Claims}

theorem legal_of_step {ev : Happening Tid} (hreach : Reach (system Tid) (initial Tid) c)
    (hstep : Step (system Tid) c ev d) : Legal c.shared ev d.shared :=
  Outline.sound_step protocol_proves consistent_initial hreach hstep

/-- What legal steps keep, runs keep. -/
theorem run_invariant {P : Memory → Prop}
    (hP : ∀ (σ : World Tid) ev σ', Legal σ ev σ' → P σ.mem → P σ'.mem)
    (hreach : Reach (system Tid) (initial Tid) c) (hsteps : Steps (system Tid) c d)
    (h : P c.shared.mem) : P d.shared.mem :=
  Outline.sound_steps (P := fun σ => P σ.mem) protocol_proves consistent_initial hreach hP hsteps h

/-- The lifecycle protocol, in every interleaving of any calls by any CPUs. A mailbox that is
parked, online or failed has a claimed entry and a published generation; one call at most gets a
claim; each step takes an edge or none, is authorized by the published generation, and enters
`Starting` for the first and last time if it does; `Failed` and a published generation stay for
ever. -/
theorem lifecycle_protocol (hreach : Reach (system Tid) (initial Tid) c) :
    (∃ s, lifecycleOf c.shared.mem = some s ∧ (s = .parked ∨ s = .online ∨ s = .failed →
        c.shared.mem .entryClaimed = 1 ∧ c.shared.mem .ready ≠ 0)) ∧
      (∀ i j claim claim', .ret i (.claim (.ok claim)) ∈ c.shared.history →
        .ret j (.claim (.ok claim')) ∈ c.shared.history → i = j) ∧
      (∀ ev c', Step (system Tid) c ev c' →
        Moves c.shared.mem c'.shared.mem ∧ Authorized c.shared.mem c'.shared.mem ev ∧
        (EntersStarting c.shared.mem c'.shared.mem → ∀ d ev' d', Steps (system Tid) c' d →
          Step (system Tid) d ev' d' → ¬ EntersStarting d.shared.mem d'.shared.mem)) ∧
      (∀ d, Steps (system Tid) c d →
        (lifecycleOf c.shared.mem = some .failed → lifecycleOf d.shared.mem = some .failed) ∧
        (c.shared.mem .ready ≠ 0 → d.shared.mem .ready = c.shared.mem .ready)) := by
  have hinv : Consistent c.shared := (Outline.sound protocol_proves consistent_initial hreach).inv
  refine ⟨?_, ?_, ?_, ?_⟩
  · obtain ⟨s, hs⟩ := hinv.word
    refine ⟨s, lifecycleOf_eq hs, fun hlate => ?_⟩
    have hword : 3 ≤ c.shared.mem .state := by
      rw [hs]
      rcases hlate with rfl | rfl | rfl <;> decide
    exact ⟨hinv.entered hword, hinv.started (by omega)⟩
  · intro i j claim claim' hi hj
    exact hinv.unique i j (hinv.returned i claim hi) (hinv.returned j claim' hj)
  · intro ev c' hstep
    have hlegal := legal_of_step hreach hstep
    refine ⟨hlegal.moves, hlegal.authorized, fun henters d ev' d' hsteps hstep' henters' => ?_⟩
    have hreach' : Reach (system Tid) (initial Tid) c' := hreach.tail ⟨ev, hstep⟩
    have hstarted : 2 ≤ d.shared.mem .state :=
      run_invariant (P := fun m => 2 ≤ m .state) (fun _ _ _ hl => hl.moves.started) hreach' hsteps
        (Nat.le_of_eq (hlegal.moves.enters henters).2.symm)
    have hprepared := ((legal_of_step (hreach'.trans hsteps) hstep').moves.enters henters').1
    omega
  · intro d hsteps
    refine ⟨fun hfailed => ?_, fun hready => ?_⟩
    · obtain ⟨s, hs⟩ := hinv.word
      have hword : c.shared.mem .state = 5 := by
        rw [lifecycleOf_eq hs, Option.some.injEq] at hfailed
        rw [hs, hfailed]
        rfl
      have hword' : d.shared.mem .state = 5 :=
        run_invariant (P := fun m => m .state = 5) (fun _ _ _ hl => hl.moves.failed) hreach hsteps
          hword
      exact lifecycleOf_eq hword'
    · refine run_invariant (P := fun m => m .ready = c.shared.mem .ready) (fun σ ev σ' hl h => ?_)
        hreach hsteps rfl
      exact (hl.keeps.ready (h ▸ hready)).trans h

end Runs

/-- CPU 0 prepares, publishes generation 7 and starts the CPU; CPU 1 enters, claims and parks. -/
def bootOne : List (Move Nat Call) :=
  [.start 0 .markPrepared, .next 0, .next 0,
    .start 0 (.publish 7), .next 0, .next 0, .next 0,
    .start 0 (.beginStart 7), .next 0, .next 0, .next 0,
    .start 1 (.claimEntry 7), .next 1, .next 1, .next 1, .next 1,
    .start 1 (.park 7), .next 1, .next 1, .next 1]

theorem lifecycle_protocol_bootOne :
    ∃ c, Config.run (system Nat) ⟨initial Nat, fun _ => none⟩ bootOne = some c ∧
      lifecycleOf c.shared.mem = some .parked ∧
      c.shared.mem .entryClaimed = 1 ∧ c.shared.mem .ready ≠ 0 := by
  have happly : ∀ c, Config.run (system Nat) ⟨initial Nat, fun _ => none⟩ bootOne = some c →
      lifecycleOf c.shared.mem = some .parked →
      c.shared.mem .entryClaimed = 1 ∧ c.shared.mem .ready ≠ 0 := by
    intro c hrun hparked
    obtain ⟨⟨s, hs, hlate⟩, _⟩ := lifecycle_protocol (Config.run_steps hrun)
    rw [hparked, Option.some.injEq] at hs
    exact hlate (.inl hs.symm)
  exact ⟨_, rfl, rfl, happly _ rfl rfl⟩

end Tvisor.SecondaryMailbox
