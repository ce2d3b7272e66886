/-
# Tvisor.Secondary.Authorized -- no guest without a complete boot

A guest is authorized when the boot word is `Ready`. Only one exchange makes it so, the last of a
`start_all`, and what stands before that exchange in the same call is a whole boot: `Complete` says
so with `Prog.Ran`, a run of each stage to its success. Which call that is, is a fact about the boot
word alone: it leaves `Idle` once, and the four terminal states have no way out.
-/
import Tvisor.Secondary.Steps

namespace Tvisor.Secondary

open Interleave Fallible CpuTopology SecondaryEntry StartupPublication SecondaryBoot
open StartupResources (Resources)

variable {ok : List Act → Act → Prop} {s s' : BootStatus}

/-! ## A complete boot -/

/-- A move of the boot word. -/
abbrev moves (s s' : BootStatus) : Act := .exchange .boot s.toWord s'.toWord true

/-- The last look: the attempted releases are the required ones, no fatal condition is raised, and
every required CPU is seen parked, under the published generation, with an empty failure mask. It
only loads. -/
structure FinalCheck (required : Nat) (checked : List Act) : Prop where
  loads : ∀ a ∈ checked, a.IsLoad
  attempted : .load .attempted required ∈ checked
  fatal : .load .fatal 0 ∈ checked
  parked : ∀ id, required.testBit id = true →
    [.load (.slot id (.mailbox .ready)) generation,
      .load (lifecycleCell id) SecondaryMailbox.CpuState.parked.toWord,
      .load (.failures id) 0].Sublist checked

/-- The operations of a boot in which every stage succeeded: the claim of the boot word, the
preparation, the freeze of the tables, the publication, the step to `Releasing`, the releases with
their waits, and the last look. -/
def Complete (p : Platform) (plan : Plan) (ops : List Act) : Prop :=
  ∃ contract ticks resources prepared froze published released checked,
    plan.platform = .ok (contract, ticks) ∧ requiredMask p ≠ 0 ∧
    (prepareAllCpus p plan (requiredMask p)).run.Ran prepared (.ok resources) ∧
    (validateAndFreeze plan).run.Ran froze (.ok ()) ∧
    (publishAllStartups p plan contract resources).run.Ran published (.ok ()) ∧
    (releaseAndWait p plan (requiredMask p) contract ticks).run.Ran released (.ok ()) ∧
    FinalCheck (requiredMask p) checked ∧
    ops = moves .idle .preparing :: (prepared ++ (froze ++ (published ++
      moves .preparing .releasing :: (released ++ checked))))

theorem Complete.begins {p : Platform} {plan : Plan} {ops : List Act}
    (h : Complete p plan ops.reverse) : moves .idle .preparing ∈ ops := by
  obtain ⟨_, _, _, _, _, _, _, _, _, _, _, _, _, _, _, heq⟩ := h
  rw [← List.mem_reverse, heq]
  exact List.mem_cons_self

/-! ## The last look -/

/-- A run of the last look that succeeded. -/
theorem finalCheck_of_ran {p : Platform} {required : Nat} {checked : List Act}
    (h : (verifyAllParked p required).run.Ran checked (.ok ())) : FinalCheck required checked := by
  obtain ⟨hattempted, hfatal, hparked⟩ := h.along (verifyAllParked_along p required) () rfl
  rw [List.append_nil, List.mem_reverse] at hattempted hfatal
  refine ⟨(h.forall (verifyAllParked_loads p required)).1, hattempted, hfatal, fun id hid => ?_⟩
  have hobserved := hparked id hid
  rw [List.append_nil] at hobserved
  exact List.reverse_sublist.mp hobserved

/-! ## The edges of the boot word -/

variable {a : Act} {result : Except BootError Unit}

inductive BootEdge : BootStatus → BootStatus → Prop
  | begin : BootEdge .idle .preparing
  | release : BootEdge .preparing .releasing
  | preparationFailed : BootEdge .preparing .preparationFailed
  | ready : BootEdge .releasing .ready
  | releaseFailed : BootEdge .releasing .releaseFailed
  | waitFailed : BootEdge .releasing .waitFailed

/-- No edge leads out of these. -/
def IsTerminal (s : BootStatus) : Prop :=
  s = .ready ∨ s = .preparationFailed ∨ s = .releaseFailed ∨ s = .waitFailed

theorem BootEdge.of_terminal (h : terminal s result = some s') :
    BootEdge s s' := by
  rcases s with _ | _ | _ | _ | _ | _ | _ <;> rcases result with e | u
  all_goals try cases h
  · exact .preparationFailed
  · exact .preparationFailed
  · cases e <;> cases h <;> constructor
  · exact .ready

/-- The boot word is read, or moves along an edge. -/
def Steady (a : Act) : Prop :=
  a.loc = .boot → a.IsRead ∨ ∃ s s', BootEdge s s' ∧ a = moves s s'

theorem steady_of_edge (h : BootEdge s s') (b : Bool) :
    Steady (.exchange .boot s.toWord s'.toWord b) := by
  intro _
  rcases b with _ | _
  · exact .inl rfl
  · exact .inr ⟨s, s', h, rfl⟩

/-! ## One call of `start_all` -/

section Procedure

variable {p : Platform} {plan : Plan} {past : List Act}

/-- The boot word becomes `Ready` only after a complete boot, and after it was seen at
`Releasing`. -/
def ReadyLast (p : Platform) (plan : Plan) (past : List Act) (a : Act) : Prop :=
  a = moves .releasing .ready →
    ∃ earlier, past = .load .boot BootStatus.releasing.toWord :: earlier ∧
      Complete p plan earlier.reverse

theorem ne_ready_of_lawful (h : Lawful a) : a ≠ moves .releasing .ready := by
  rintro rfl
  exact Bool.noConfusion (h.boot rfl : true = false)

/-- What the call may do: it takes edges, and the one to `Ready` last. -/
def Boots (p : Platform) (plan : Plan) (past : List Act) (a : Act) : Prop :=
  Steady a ∧ ReadyLast p plan past a

theorem boots_of_lawful (past : List Act) (a : Act) (h : Lawful a) : Boots p plan past a :=
  ⟨fun hloc => .inl (h.boot hloc), fun heq => absurd heq (ne_ready_of_lawful h)⟩

theorem mapErr_along {ε ε' A : Type} {f : ε → ε'} {x : Attempt ε A} {Φ : A → List Act → Prop}
    (h : x.run.Along ok (fun r past' => ∀ a, r = .ok a → Φ a past') past) :
    (mapErr f x).run.Along ok (fun r past' => ∀ a, r = .ok a → Φ a past') past := by
  refine .lifted (h.bind fun r past' hr => ?_)
  rcases r with (e | _ | _) | a
  · exact nofun
  · exact nofun
  · exact nofun
  · rintro _ ⟨⟩
    exact hr a rfl

/-- A lawful stage that succeeds leaves the operations of a run of it. -/
theorem stage_along {ε A : Type} {x : Attempt ε A} (h : x.run.Only Lawful) :
    x.run.Along (Boots p plan) (fun r past' => ∀ a, r = .ok a →
      ∃ ops, x.run.Ran ops (.ok a) ∧ past' = ops.reverse ++ past) past := by
  refine (Prog.Along.ran h boots_of_lawful).post ?_
  rintro r past' ⟨ops, hran, rfl⟩ a rfl
  exact ⟨ops, hran, rfl⟩

theorem advance_along {e : BootError} (hok : ∀ b, ok past (.exchange .boot s.toWord s'.toWord b)) :
    (advance s s' e).run.Along ok
      (fun r past' => ∀ u, r = .ok u → past' = moves s s' :: past) past := by
  refine .lifted fun b => ⟨hok b, ?_⟩
  rcases b with _ | _
  · exact nofun
  · exact fun _ _ => rfl

/-- An exchange to another status than `Ready`. -/
theorem boots_of_ne (hedge : BootEdge s s') (h : s' ≠ .ready) (b : Bool) :
    Boots p plan past (.exchange .boot s.toWord s'.toWord b) := by
  refine ⟨steady_of_edge hedge b, fun heq => ?_⟩
  injection heq with _ _ hnext _
  exact absurd hnext (by cases s' <;> simp_all [BootStatus.toWord])

theorem procedure_along (p : Platform) (plan : Plan) :
    (procedure p plan).run.Along (Boots p plan)
      (fun r past' => ∀ u, r = .ok u → Complete p plan past'.reverse)
      [moves .idle .preparing] := by
  have hplatform : (ExceptT.mk (pure plan.platform) :
      Attempt String (EntryContract × Nat)).run.Along (Boots p plan) (fun r past' =>
        ∀ a, r = .ok a → plan.platform = .ok a ∧ past' = [moves .idle .preparing])
        [moves .idle .preparing] := fun a ha => ⟨ha, rfl⟩
  refine .run_bind (mapErr_along hplatform) (fun platform past₀ h₀ => ?_) fun _ _ _ => nofun
  obtain ⟨hcontract, rfl⟩ := h₀ platform rfl
  rcases platform with ⟨contract, ticks⟩
  show Prog.Along _ _ (ExceptT.run (if requiredMask p = 0 then _ else _)) _
  split
  · exact nofun
  rename_i hrequired
  refine .run_bind (mapErr_along (stage_along (prepareAllCpus_lawful p plan _)))
    (fun resources past₁ h₁ => ?_) fun _ _ _ => nofun
  obtain ⟨prepared, hprepared, rfl⟩ := h₁ resources rfl
  refine .run_bind (mapErr_along (stage_along (validateAndFreeze_lawful plan)))
    (fun u past₂ h₂ => ?_) fun _ _ _ => nofun
  obtain ⟨froze, hfroze, rfl⟩ := h₂ u rfl
  refine .run_bind (mapErr_along (stage_along (publishAllStartups_lawful p plan _ _)))
    (fun u past₃ h₃ => ?_) fun _ _ _ => nofun
  obtain ⟨published, hpublished, rfl⟩ := h₃ u rfl
  refine .run_bind (advance_along (boots_of_ne .release nofun)) (fun u past₄ h₄ => ?_)
    fun _ _ _ => nofun
  obtain rfl := h₄ u rfl
  refine .run_bind (stage_along (releaseAndWait_lawful p plan _ _ _)) (fun u past₅ h₅ => ?_)
    fun _ _ _ => nofun
  obtain ⟨released, hreleased, rfl⟩ := h₅ u rfl
  refine (stage_along (lawful_of_loads (verifyAllParked_loads p _))).post fun r past₆ h₆ u hu => ?_
  obtain ⟨checked, hchecked, rfl⟩ := h₆ u hu
  refine ⟨contract, ticks, resources, prepared, froze, published, released, checked, hcontract,
    hrequired, hprepared, hfroze, hpublished, hreleased, finalCheck_of_ran hchecked, ?_⟩
  simp

theorem terminal_ready {old : BootStatus} (h : terminal old result = some .ready) :
    result = .ok () := by
  rcases result with e | u
  · cases old <;> cases e <;> cases h
  · rfl

theorem finalizeBoot_along (h : ∀ u, result = .ok u → Complete p plan past.reverse) :
    (finalizeBoot result).run.Along (Boots p plan) (fun _ _ => True) past := by
  refine .run_bind (bootStatus_along fun v => boots_of_lawful _ _ (lawful_of_read trivial))
    (fun old past' hold => ?_) fun _ _ _ => trivial
  obtain rfl := hold old rfl
  split
  · trivial
  rename_i next hnext
  refine .run_bind (advance_along fun b => ?_) (fun _ _ _ => ?_) fun _ _ _ => trivial
  · refine ⟨steady_of_edge (.of_terminal hnext) b, fun heq => ?_⟩
    injection heq with _ hexpected hnew _
    obtain rfl : next = .ready := by cases next <;> first | rfl | cases hnew
    exact ⟨past, by rw [hexpected], h () (terminal_ready hnext)⟩
  · split
    · trivial
    · split <;> trivial

theorem startAll_along (p : Platform) (plan : Plan) :
    (startAll p plan).run.Along (Boots p plan) (fun _ _ => True) [] := by
  refine .run_bind (advance_along (boots_of_ne .begin nofun)) (fun u past₁ h₁ => ?_)
    fun _ _ _ => trivial
  obtain rfl := h₁ u rfl
  refine .lifted ((procedure_along p plan).bind fun r past₂ h₂ => ?_)
  rcases r with (e | _ | _) | u
  · exact finalizeBoot_along nofun
  · trivial
  · trivial
  · exact finalizeBoot_along fun _ _ => h₂ u rfl

end Procedure

/-- What a call does to the boot word, after what it has done itself. -/
def Permitted (p : Platform) : Call → List Act → Act → Prop
  | .startAll plan => Boots p plan
  | _ => fun _ a => Steady a ∧ a ≠ moves .releasing .ready

/-- A guest is authorized by a call that has seen `Ready`. -/
def Answered (r : Reply) (past : List Act) : Prop :=
  ∀ u, r = .authorized (.ok u) → .load .boot BootStatus.ready.toWord ∈ past

theorem ensureGuestAuthorized_along :
    ensureGuestAuthorized.run.Along (fun _ a => Steady a ∧ a ≠ moves .releasing .ready)
      (fun r past' => ∀ u, r = .ok u → .load .boot BootStatus.ready.toWord ∈ past') [] := by
  refine .lifted ((hasFatal_along fun _ => ⟨nofun, nofun⟩).bind fun fatal past' h => ?_)
  obtain ⟨v, rfl, rfl⟩ := h
  unfold guestAuthorized
  split
  · exact nofun
  refine .run_bind (bootStatus_along fun _ => ⟨fun _ => .inl trivial, nofun⟩)
    (fun s past' h => ?_) fun _ _ _ => nofun
  obtain rfl := h s rfl
  split
  · rename_i hs
    intro _ _
    rw [hs]
    exact List.mem_cons_self
  · exact nofun

/-- A lawful call that answers something else. -/
theorem other_along {A : Type} {x : Ops A} {f : A → Reply} (h : x.Only Lawful)
    (hf : ∀ a r, f a ≠ .authorized r) :
    (x >>= fun a => pure (f a)).Along (fun _ a => Steady a ∧ a ≠ moves .releasing .ready)
      Answered [] := by
  have hx : x.Along (fun _ a => Steady a ∧ a ≠ moves .releasing .ready) (fun _ _ => True) [] :=
    (h.mono fun _ ha => ⟨fun hloc => .inl (ha.boot hloc), ne_ready_of_lawful ha⟩).along
  exact hx.bind fun a _ _ u heq => absurd heq (hf a _)

theorem store_lawful {c : Cell} {v : Val c} (hboot : c ≠ .boot) (hmask : c ≠ .attempted)
    (hlifecycle : ∀ slot, c ≠ lifecycleCell slot) : (store c v).Only Lawful :=
  ⟨lawful_of_ne hboot hmask hlifecycle, trivial⟩

theorem code_along (p : Platform) (call : Call) :
    (code p call).Along (Permitted p call) Answered [] := by
  cases call with
  | startAll plan => exact (startAll_along p plan).bind fun _ _ _ => nofun
  | ensureGuestAuthorized =>
    refine ensureGuestAuthorized_along.bind fun r past h u heq => ?_
    exact h u (Reply.authorized.inj heq)
  | mailbox slot call => exact other_along (mailboxCode_lawful slot call) nofun
  | slot id call => exact other_along (slotCode_lawful p id call) nofun
  | checkpoint slot failures | recordFatal =>
    exact other_along (f := fun _ => .done) (store_lawful nofun nofun nofun) nofun

theorem code_steady (p : Platform) (call : Call) : (code p call).Only Steady := by
  refine (code_along p call).only fun past a h => ?_
  cases call <;> exact h.1

/-! ## The boot word -/

variable {Tid : Type}

abbrev World (Tid : Type) := Shared Val Tid Call Reply Unit

/-- The boot word stays, or moves along an edge. -/
def BootMoves (m m' : ∀ c, Val c) : Prop :=
  m' .boot = m .boot ∨ ∃ s s', BootEdge s s' ∧ m .boot = s.toWord ∧ m' .boot = s'.toWord

/-- An operation that leaves the word, or one that moves it. -/
theorem Steady.cases (h : Steady a) {m : ∀ c, Val c} (hen : a.Enabled m) :
    a.apply m .boot = m .boot ∧ (∀ s s', a ≠ moves s s') ∨
      ∃ s s', BootEdge s s' ∧ a = moves s s' ∧ m .boot = s.toWord ∧
        a.apply m .boot = s'.toWord := by
  by_cases hloc : Cell.boot = a.loc
  · rcases h hloc.symm with hread | ⟨s, s', hedge, rfl⟩
    · refine .inl ⟨by rw [hread.apply_eq], ?_⟩
      rintro s s' rfl
      exact Bool.noConfusion (hread : true = false)
    · exact .inr ⟨s, s', hedge, rfl, hen.mp rfl, Action.apply_exchange_self _ _ _ m⟩
  · refine .inl ⟨a.apply_of_ne hloc m, ?_⟩
    rintro s s' rfl
    exact hloc rfl

theorem BootStatus.toWord_injective : Function.Injective BootStatus.toWord := by
  intro s s' h
  cases s <;> cases s' <;> first | rfl | cases h

theorem BootMoves.terminal {m m' : ∀ c, Val c} (h : BootMoves m m') {s : BootStatus}
    (hs : IsTerminal s) (hm : m .boot = s.toWord) : m' .boot = s.toWord := by
  rcases h with hsame | ⟨s₁, s₂, hedge, hold, _⟩
  · exact hsame.trans hm
  · obtain rfl := BootStatus.toWord_injective (hold.symm.trans hm)
    rcases hs with rfl | rfl | rfl | rfl <;> cases hedge

/-- The invariant: the word is `Ready` because some call made it so, whoever saw that can rely on
it, and one call at most took it out of `Idle`. -/
structure Aggregate (σ : World Tid) : Prop where
  ready : σ.mem .boot = BootStatus.ready.toWord →
    ∃ i, .act i (moves .releasing .ready) ∈ σ.history
  seen : ∀ i, .act i (.load .boot BootStatus.ready.toWord) ∈ σ.history →
    σ.mem .boot = BootStatus.ready.toWord
  begun : ∀ i, .act i (moves .idle .preparing) ∈ σ.history →
    σ.mem .boot ≠ BootStatus.idle.toWord
  once : ∀ i j, .act i (moves .idle .preparing) ∈ σ.history →
    .act j (moves .idle .preparing) ∈ σ.history → i = j

theorem Aggregate.other {σ σ' : World Tid} {ev : Event Val Tid Call Reply} (h : Aggregate σ)
    (hmem : σ'.mem = σ.mem) (hhistory : σ'.history = ev :: σ.history)
    (hev : ∀ i a, ev ≠ .act i a) : Aggregate σ' := by
  refine ⟨?_, ?_, ?_, ?_⟩ <;> rw [hhistory]
  · rw [hmem]
    exact fun hready => (h.ready hready).imp fun i hi => List.mem_cons_of_mem _ hi
  · rw [hmem]
    exact fun i hi => h.seen i (act_mem_of_ne hev hi)
  · rw [hmem]
    exact fun i hi => h.begun i (act_mem_of_ne hev hi)
  · exact fun i j hi hj => h.once i j (act_mem_of_ne hev hi) (act_mem_of_ne hev hj)

theorem bootMoves_acted {σ : World Tid} (ha : Steady a) (hen : a.Enabled σ.mem) :
    BootMoves σ.mem (a.apply σ.mem) := by
  rcases ha.cases hen with ⟨hsame, _⟩ | ⟨s, s', hedge, _, hold, hnew⟩
  · exact .inl hsame
  · exact .inr ⟨s, s', hedge, hold, hnew⟩

/-- A word that has left `Idle` does not come back. -/
theorem BootMoves.ne_idle {m m' : ∀ c, Val c} (h : BootMoves m m')
    (hm : m .boot ≠ BootStatus.idle.toWord) : m' .boot ≠ BootStatus.idle.toWord := by
  rcases h with hsame | ⟨s, s', hedge, _, hnew⟩
  · rw [hsame]
    exact hm
  · rw [hnew]
    cases hedge <;> decide

theorem Aggregate.acted {σ : World Tid} (h : Aggregate σ) (i : Invocation Val Tid Call)
    (ha : Steady a) (hen : a.Enabled σ.mem) : Aggregate (σ.acted i a) where
  ready hready := by
    rcases ha.cases hen with ⟨hsame, _⟩ | ⟨s, s', hedge, rfl, _, hnew⟩
    · exact (h.ready (hsame.symm.trans hready)).imp fun j hj => List.mem_cons_of_mem _ hj
    · obtain rfl := BootStatus.toWord_injective (hnew.symm.trans hready)
      cases hedge
      exact ⟨i, List.mem_cons_self⟩
  seen j hj := by
    rcases List.mem_cons.mp hj with heq | hold
    · obtain ⟨rfl, rfl⟩ := Event.act.inj heq
      exact Eq.symm hen
    · exact (bootMoves_acted ha hen).terminal (.inl rfl) (h.seen j hold)
  begun j hj := by
    rcases List.mem_cons.mp hj with heq | hold
    · obtain ⟨rfl, rfl⟩ := Event.act.inj heq
      rw [Shared.acted_exchange_self]
      decide
    · exact (bootMoves_acted ha hen).ne_idle (h.begun j hold)
  once j k hj hk := by
    rcases List.mem_cons.mp hj with heq | hold
    · obtain ⟨rfl, rfl⟩ := Event.act.inj heq
      rcases List.mem_cons.mp hk with heq' | hold'
      · exact (Event.act.inj heq').1.symm
      · exact absurd (hen.mp rfl) (h.begun k hold')
    · rcases List.mem_cons.mp hk with heq' | hold'
      · obtain ⟨rfl, rfl⟩ := Event.act.inj heq'
        exact absurd (hen.mp rfl) (h.begun j hold)
      · exact h.once j k hold hold'

/-! ## Every run -/

section Runs

variable [DecidableEq Tid] {p : Platform} {m : ∀ c, Val c} {c : Config Val Tid Call Reply Unit}

def aggregate (Tid : Type) : Outline Val Tid Call Reply Unit :=
  .free Aggregate fun σ _ σ' => BootMoves σ.mem σ'.mem

omit [DecidableEq Tid] in
theorem aggregate_proves : (aggregate Tid).Proves (system p Tid) := by
  refine Outline.free_proves (code_steady p) (fun σ i env h => ?_) (fun σ i a h hen ha => ?_)
    fun σ i r env h => ?_
  · exact ⟨h.other rfl rfl (Event.start_ne_act i), .inl rfl⟩
  · exact ⟨h.acted i ha hen, bootMoves_acted ha hen⟩
  · exact ⟨h.other rfl rfl fun j a => Event.ret_ne_act i j r a, .inl rfl⟩

omit [DecidableEq Tid] in
theorem aggregate_initial (hidle : m .boot = BootStatus.idle.toWord) :
    Aggregate (⟨m, (), []⟩ : World Tid) := by
  refine ⟨fun hready => ?_, by simp, by simp, by simp⟩
  cases hidle.symm.trans hready

/-- In every run that begins with an idle boot word, whatever the calls, the answers of the hardware
and the interleaving: a guest is authorized only if exactly one `start_all` took the boot word out
of `Idle`, and that call had run a complete boot when it made the word `Ready`; and the terminal
states of the word stay for ever. -/
theorem guest_only_after_complete_boot (hidle : m .boot = BootStatus.idle.toWord)
    (hreach : Reach (system p Tid) ⟨m, (), []⟩ c) :
    (∀ g, .ret g (.authorized (.ok ())) ∈ c.shared.history →
      ∃ i plan earlier older, i.call = .startAll plan ∧
        (∀ j, .act j (moves .idle .preparing) ∈ c.shared.history ↔ j = i) ∧
        .act i (moves .releasing .ready) :: older <:+ c.shared.history ∧
        own i older = .load .boot BootStatus.releasing.toWord :: earlier ∧
        Complete p plan earlier.reverse) ∧
    ∀ s, IsTerminal s → c.shared.mem .boot = s.toWord →
      ∀ d, Steps (system p Tid) c d → d.shared.mem .boot = s.toWord := by
  have htraced := traced (code_along p) hreach
  have haggregate : Aggregate c.shared :=
    (Outline.sound aggregate_proves (aggregate_initial hidle) hreach).inv
  refine ⟨fun g hg => ?_, fun s hs hc d hsteps => ?_⟩
  · -- The answer has seen `Ready`, so some call has made it so.
    obtain ⟨olderG, hretG⟩ := suffix_of_mem hg
    have hload := htraced.ret g _ olderG hretG () rfl
    have hseen := hretG.subset (List.mem_cons_of_mem _ (htraced.mem_of_own hload hretG rfl))
    obtain ⟨i, hi⟩ := haggregate.ready (haggregate.seen g hseen)
    obtain ⟨older, hready⟩ := suffix_of_mem hi
    have hact := htraced.act i _ older hready
    rcases hcall : i.call with plan | _ | ⟨slot, call⟩ | ⟨id, call⟩ | ⟨slot, failures⟩ | _
    case startAll =>
      rw [hcall] at hact
      obtain ⟨earlier, hown, hcomplete⟩ := hact.2 rfl
      have hbegins : moves .idle .preparing ∈ own i older := by
        rw [hown]
        exact List.mem_cons_of_mem _ hcomplete.begins
      have hbegan : .act i (moves .idle .preparing) ∈ c.shared.history :=
        hready.subset (List.mem_cons_of_mem _ (htraced.mem_of_own hbegins hready rfl))
      refine ⟨i, plan, earlier, older, hcall, fun j => ⟨fun hj => ?_, ?_⟩, hready, hown, hcomplete⟩
      · exact haggregate.once j i hj hbegan
      · rintro rfl
        exact hbegan
    all_goals
      rw [hcall] at hact
      exact absurd rfl hact.2
  · exact Outline.sound_steps aggregate_proves (aggregate_initial hidle) hreach
      (P := fun σ => σ.mem .boot = s.toWord)
      (fun σ ev σ' hmoves h => hmoves.terminal hs h) hsteps hc

end Runs

/-! A boot of one secondary. -/

def onePlatform : Platform where
  topology := some twoCpus
  releaseCells := some [0x80]
  slotAddress id := 0x9000 + id * slotSize
  configAddress := 0xa000
  entry := 0x80000

def onePage (start : Nat) (h : start + 4096 < Words.wordBound) : SystemInfo.PhysRegion :=
  ⟨start, 4096, by decide, h⟩

def oneResources : Resources where
  code := onePage 0x80000 (by decide)
  vectors := onePage 0x81000 (by decide)
  rodata := onePage 0x82000 (by decide)
  writable := ⟨0x9000, 0x2000, by decide, by decide⟩
  tables := onePage 0x83000 (by decide)
  slots := ⟨0x9000, 4 * slotSize, by decide, by decide⟩
  config := .ofBounds 0xa000 0xa040 (by decide) (by decide)
  context := .ofBounds 0x9180 0x91c0 (by decide) (by decide)
  releasePage := onePage 0 (by decide)
  stack := ⟨0x100000, 0x101000, 0x111000⟩
  entry := 0x80000
  root := 0x4100000

/-- The hardware does everything, and the release cell reads back as the entry. -/
def onePlan : Plan where
  policy := ⟨0x4100000, El2Policy.hostTcr 4, 4, 44, rfl, by decide, by decide, by decide, rfl⟩
  platform := .ok (⟨true, true⟩, 1000)
  mapped _ := true
  resources _ _ := .ok oneResources
  validated := .ok ()
  line := 4096
  clean _ _ := some 0
  barrier := some 0
  release _ := ⟨fun _ => some 0, 1⟩
  elapsed _ _ := 0
  readback _ _ := some 0x80000

/-- The slot of the secondary is prepared; nothing else has happened. -/
def oneIdle : ∀ c, Val c
  | .bus => none
  | .slot 1 (.mailbox .state) | .slot 1 .logicalId | .slot 1 .affinity => 1
  | .slot 1 .stackBottom => 0x101000
  | .slot 1 .stackTop => 0x111000
  | .boot | .attempted | .frozen | .fatal | .config _ | .slot _ _ | .failures _ => 0

/-- The boot up to the bit in the mask, the secondary's claim and its move to `Parked`, the rest of
the boot, and the question of a guest. -/
def bootOne : List (Move Nat Call) :=
  .start 0 (.startAll onePlan) :: List.replicate 89 (.next 0) ++
    (.start 1 (.mailbox 1 (.claimEntry 1)) :: List.replicate 4 (.next 1)) ++
    (.start 1 (.mailbox 1 (.park 1)) :: List.replicate 3 (.next 1)) ++
    List.replicate 47 (.next 0) ++
    .start 0 .ensureGuestAuthorized :: List.replicate 3 (.next 0)

def isAuthorized : Event Val Nat Call Reply → Bool
  | .ret _ (.authorized (.ok ())) => true
  | _ => false

theorem isAuthorized_iff {ev : Event Val Nat Call Reply} :
    isAuthorized ev = true ↔ ∃ g, ev = .ret g (.authorized (.ok ())) := by
  constructor
  · intro h
    unfold isAuthorized at h
    split at h
    · exact ⟨_, rfl⟩
    · cases h
  · rintro ⟨g, rfl⟩
    rfl

theorem bootOne_authorized :
    ∃ c g, Config.run (system onePlatform Nat) ⟨⟨oneIdle, (), []⟩, fun _ => none⟩ bootOne =
      some c ∧ .ret g (.authorized (.ok ())) ∈ c.shared.history := by
  have hrun : (Config.run (system onePlatform Nat) ⟨⟨oneIdle, (), []⟩, fun _ => none⟩ bootOne).map
      (fun c => c.shared.history.any isAuthorized) = some true := by decide +kernel
  obtain ⟨c, hc, hany⟩ := Option.map_eq_some_iff.mp hrun
  obtain ⟨ev, hev, hauthorized⟩ := List.any_eq_true.mp hany
  obtain ⟨g, rfl⟩ := isAuthorized_iff.mp hauthorized
  exact ⟨c, g, hc, hev⟩

theorem guest_only_after_complete_boot_bootOne :
    ∃ c g, Config.run (system onePlatform Nat) ⟨⟨oneIdle, (), []⟩, fun _ => none⟩ bootOne =
        some c ∧
      .ret g (.authorized (.ok ())) ∈ c.shared.history ∧
      ∃ i plan earlier, i.call = .startAll plan ∧
        (∀ j, .act j (moves .idle .preparing) ∈ c.shared.history ↔ j = i) ∧
        Complete onePlatform plan earlier := by
  obtain ⟨c, g, hrun, hg⟩ := bootOne_authorized
  obtain ⟨hguest, _⟩ := guest_only_after_complete_boot rfl (Config.run_steps hrun)
  obtain ⟨i, plan, earlier, _, hcall, hunique, _, _, hcomplete⟩ := hguest g hg
  exact ⟨c, g, hrun, hg, i, plan, earlier.reverse, hcall, hunique, hcomplete⟩

end Tvisor.Secondary
