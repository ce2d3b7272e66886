/-
# Tvisor.Lib.PublishOnce -- records that one writer fills and then publishes

A record has fields, a claim and a flag. A writer first takes the claim, in one atomic operation
that only one writer can win, then stores the fields one by one, then sets the flag. A reader looks
at the flag and, when it is set, loads the fields one by one. Writers may lose the claim, die after
winning it, or never finish.

`Orderly` is what each call promises about its own operations. While the flag is down nobody but the
winner then writes a field, and once it is up nobody does, so whoever reads after the flag reads
what the winner stored. `Record.untorn` asks for one walk through the code of each call and gives
the guarantee in every reachable state. The flag and the claim may be the same location.
-/
import Tvisor.Lib.Discipline

namespace PublishOnce

open Interleave

variable {Loc Tid Call Reply Env ι : Type}

/-- Where the record keeps its parts, what a call would publish, what value a reply brings, and
which replies report that the caller's publication was accepted or refused. -/
structure Record (Loc Call Reply ι : Type) where
  claim : Loc
  flag : Loc
  field : ι → Loc
  ready : Nat → Prop
  arg : Call → Option (ι → Nat)
  value : Reply → Option (ι → Nat)
  verdict : Reply → Option Bool
  field_injective : Function.Injective field
  field_ne_claim : ∀ x, field x ≠ claim
  field_ne_flag : ∀ x, field x ≠ flag

namespace Record

variable (R : Record Loc Call Reply ι)

/-- The operation took the claim, which was free. -/
def IsClaim : Action (fun _ : Loc => Nat) → Prop
  | .exchange l expected _ true => l = R.claim ∧ expected = 0
  | .swap l _ old => l = R.claim ∧ old = 0
  | _ => False

/-- The call has taken the claim. -/
def Won (i : Invocation (fun _ : Loc => Nat) Tid Call)
    (history : List (Event (fun _ : Loc => Nat) Tid Call Reply)) : Prop :=
  ∃ a, R.IsClaim a ∧ .act i a ∈ history

/-- What the history of a record that is never torn shows: one winner at most, every value read is
the whole argument of the winner, all values read are the same, and a publication is accepted
exactly when it is the winner's. -/
structure Untorn (history : List (Event (fun _ : Loc => Nat) Tid Call Reply)) : Prop where
  single : ∀ i j, R.Won i history → R.Won j history → i = j
  whole : ∀ j r v, .ret j r ∈ history → R.value r = some v →
    ∃ i, R.Won i history ∧ R.arg i.call = some v
  agree : ∀ j r v j' r' v', .ret j r ∈ history → R.value r = some v →
    .ret j' r' ∈ history → R.value r' = some v' → v = v'
  accepted : ∀ i r b, .ret i r ∈ history → R.verdict r = some b → (b = true ↔ R.Won i history)

/-! ## What a call may do -/

section Promises

variable (past : List (Action fun _ : Loc => Nat))

/-- The call has taken the claim. -/
def Claimed : Prop := ∃ a ∈ past, R.IsClaim a

/-- The call has written every field. -/
def Full : Prop := ∀ x, ∃ v, .store (R.field x) v ∈ past

/-- The call has set the flag. -/
def Raised : Prop :=
  ∃ v, R.ready v ∧ (.store R.flag v ∈ past ∨ ∃ e, .exchange R.flag e v true ∈ past)

/-- The call has seen the flag up. -/
def Saw : Prop := ∃ v, R.ready v ∧ .load R.flag v ∈ past

/-- What a call with this argument may do after its own past: load, but fields only when it has seen
the flag up; try the claim; as the winner, store each field of its argument once, and set the flag
when all are stored; store where the record has no part. -/
inductive Orderly (arg : Option (ι → Nat)) : Action (fun _ : Loc => Nat) → Prop
  | load {l : Loc} {v : Nat} (hsaw : ∀ x, l = R.field x → R.Saw past) : Orderly arg (.load l v)
  | tryClaim {n : Nat} {success : Bool} (hn : n ≠ 0) (hflag : R.claim = R.flag → ¬ R.ready n) :
      Orderly arg (.exchange R.claim 0 n success)
  | swapClaim {n old : Nat} (hn : n ≠ 0) (hflag : R.flag ≠ R.claim) :
      Orderly arg (.swap R.claim n old)
  | field {l : Loc} {v : Nat} (x : ι) (w : ι → Nat) (hl : l = R.field x) (hv : v = w x)
      (harg : arg = some w) (hclaimed : R.Claimed past) (hfresh : ∀ u, .store l u ∉ past) :
      Orderly arg (.store l v)
  | other {l : Loc} {v : Nat} (hclaim : l ≠ R.claim) (hflag : l ≠ R.flag)
      (hfield : ∀ x, l ≠ R.field x) : Orderly arg (.store l v)
  | flag {l : Loc} {v : Nat} (hl : l = R.flag) (hv : R.ready v) (hclaimed : R.Claimed past)
      (hfull : R.Full past) (hne : R.claim = R.flag → v ≠ 0) : Orderly arg (.store l v)
  | tryFlag {e v : Nat} {success : Bool} (hv : R.ready v) (hclaimed : R.Claimed past)
      (hfull : R.Full past) (hfirst : ¬ R.Raised past) (hne : R.claim ≠ R.flag)
      (he : ∀ u, ¬ R.ready u → u = e) : Orderly arg (.exchange R.flag e v success)

end Promises

variable {R} {past past' : List (Action fun _ : Loc => Nat)} {arg : Option (ι → Nat)}

theorem Claimed.mono (h : R.Claimed past) (hsub : past ⊆ past') : R.Claimed past' := by
  obtain ⟨a, ha, hclaim⟩ := h
  exact ⟨a, hsub ha, hclaim⟩

theorem Full.mono (h : R.Full past) (hsub : past ⊆ past') : R.Full past' :=
  fun x => (h x).imp fun _ hv => hsub hv

theorem Raised.mono (h : R.Raised past) (hsub : past ⊆ past') : R.Raised past' := by
  obtain ⟨v, hv, hstore | ⟨e, hexchange⟩⟩ := h
  · exact ⟨v, hv, .inl (hsub hstore)⟩
  · exact ⟨v, hv, .inr ⟨e, hsub hexchange⟩⟩

theorem Raised.of_store {l : Loc} {v : Nat} (h : R.Raised (.store l v :: past)) (hl : l ≠ R.flag) :
    R.Raised past := by
  obtain ⟨u, hu, hmem | ⟨e, hmem⟩⟩ := h
  · refine ⟨u, hu, .inl ((List.mem_cons.mp hmem).resolve_left fun heq => ?_)⟩
    exact hl (Action.store.inj heq).1.symm
  · exact ⟨u, hu, .inr ⟨e, (List.mem_cons.mp hmem).resolve_left nofun⟩⟩

/-- A field is stored from the argument. -/
theorem Orderly.stored {x : ι} {v : Nat} (h : R.Orderly past arg (.store (R.field x) v)) :
    ∃ w, arg = some w ∧ v = w x := by
  cases h with
  | field y w hl hv harg =>
    obtain rfl := R.field_injective hl
    exact ⟨w, harg, hv⟩
  | other _ _ hfield => exact absurd rfl (hfield x)
  | flag hl => exact absurd hl (R.field_ne_flag x)

section Rules

variable {A : Type} {Q : A → List (Action fun _ : Loc => Nat) → Prop}

/-- Who has seen the flag up may load a field. -/
theorem load_field (x : ι) {rest : Nat → Prog (fun _ : Loc => Nat) A} (hsaw : R.Saw past)
    (hrest : ∀ v, R.Saw (.load (R.field x) v :: past) →
      (rest v).Along (R.Orderly · arg) Q (.load (R.field x) v :: past)) :
    (Atomic.load (R.field x) >>= rest).Along (R.Orderly · arg) Q past := by
  refine fun v => ⟨.load fun _ _ => hsaw, hrest v ?_⟩
  obtain ⟨u, hu, hmem⟩ := hsaw
  exact ⟨u, hu, List.mem_cons_of_mem _ hmem⟩

/-- The winner stores the fields, each once, and has not yet set the flag when it is done. -/
theorem fill {w : ι → Nat} {rest : Prog (fun _ : Loc => Nat) A} (xs : List ι)
    (harg : arg = some w) (hnodup : xs.Nodup) (hclaimed : R.Claimed past) (hdown : ¬ R.Raised past)
    (hfresh : ∀ x ∈ xs, ∀ v, .store (R.field x) v ∉ past)
    (hfull : ∀ x, x ∈ xs ∨ ∃ v, .store (R.field x) v ∈ past)
    (hrest : ∀ past, R.Claimed past → R.Full past → ¬ R.Raised past →
      rest.Along (R.Orderly · arg) Q past) :
    (xs.foldr (fun x => .store (R.field x) (w x)) rest).Along (R.Orderly · arg) Q past := by
  -- Induction on the fields still to be stored.
  induction xs generalizing past with
  | nil => exact hrest past hclaimed (fun x => (hfull x).resolve_left nofun) hdown
  | cons x xs ih =>
    obtain ⟨hx, hnodup⟩ := List.nodup_cons.mp hnodup
    refine ⟨.field x w rfl rfl harg hclaimed (hfresh x List.mem_cons_self), ih hnodup ?_ ?_ ?_ ?_⟩
    · exact hclaimed.mono (List.subset_cons_self _ _)
    · exact fun h => hdown (h.of_store (R.field_ne_flag x))
    · intro y hy v hmem
      rcases List.mem_cons.mp hmem with heq | hmem
      · rw [R.field_injective (Action.store.inj heq).1] at hy
        exact hx hy
      · exact hfresh y (List.mem_cons_of_mem _ hy) v hmem
    · intro y
      rcases hfull y with hy | ⟨v, hv⟩
      · rcases List.mem_cons.mp hy with rfl | hy
        · exact .inr ⟨w y, List.mem_cons_self⟩
        · exact .inl hy
      · exact .inr ⟨v, List.mem_cons_of_mem _ hv⟩

end Rules

/-! ## What the memory then keeps -/

variable (R) in
/-- What an operation of the past still says about the memory. -/
def Agrees (m : Loc → Nat) : Action (fun _ : Loc => Nat) → Prop
  | .load l v => (l = R.flag → R.ready v → R.ready (m R.flag)) ∧
      ∀ x, l = R.field x → R.ready (m R.flag) ∧ v = m l
  | .store l v => ∀ x, l = R.field x → v = m l
  | .exchange l _ _ success => success = false → l = R.flag → R.claim = R.flag
  | .swap _ _ _ => True

variable (R) in
/-- The invariant of the memory and the pasts of all calls. -/
structure Intact (m : Loc → Nat) (pasts : Nat → List (Action fun _ : Loc => Nat)) : Prop where
  taken : ∀ i, R.Claimed (pasts i) → m R.claim ≠ 0
  single : ∀ i j, R.Claimed (pasts i) → R.Claimed (pasts j) → i = j
  owner : ∀ i x v, .store (R.field x) v ∈ pasts i → R.Claimed (pasts i)
  raised : R.ready (m R.flag) → ∃ i, R.Claimed (pasts i) ∧ R.Full (pasts i) ∧ R.Raised (pasts i)
  agrees : ∀ i, ∀ a ∈ pasts i, R.Agrees m a

section Step

variable {m m' : Loc → Nat} {pasts : Nat → List (Action fun _ : Loc => Nat)} {i j : Nat}
  {a b : Action fun _ : Loc => Nat}

theorem Agrees.keep (h : R.Agrees m b) (hflag : R.ready (m R.flag) → R.ready (m' R.flag))
    (hfields : ∀ x, m' (R.field x) = m (R.field x)) : R.Agrees m' b := by
  cases b with
  | load l v =>
    refine ⟨fun hl hv => hflag (h.1 hl hv), ?_⟩
    rintro x rfl
    exact ⟨hflag (h.2 x rfl).1, (h.2 x rfl).2.trans (hfields x).symm⟩
  | store l v =>
    rintro x rfl
    exact (h x rfl).trans (hfields x).symm
  | exchange l e n success => exact h
  | swap l n old => trivial

theorem mem_after : b ∈ Function.update pasts i (a :: pasts i) j ↔ j = i ∧ b = a ∨ b ∈ pasts j := by
  by_cases hj : j = i
  · subst hj
    rw [Function.update_self, List.mem_cons]
    exact or_congr_left (and_iff_right rfl).symm
  · rw [Function.update_of_ne hj]
    exact (or_iff_right fun h => hj h.1).symm

theorem subset_after : pasts j ⊆ Function.update pasts i (a :: pasts i) j :=
  fun _ hb => mem_after.mpr (.inr hb)

theorem claimed_after (h : R.Claimed (Function.update pasts i (a :: pasts i) j)) :
    j = i ∧ R.IsClaim a ∨ R.Claimed (pasts j) := by
  obtain ⟨b, hb, hclaim⟩ := h
  rcases mem_after.mp hb with ⟨hj, rfl⟩ | hb
  · exact .inl ⟨hj, hclaim⟩
  · exact .inr ⟨b, hb, hclaim⟩

/-- An operation that takes no claim. -/
theorem Intact.keep (h : R.Intact m pasts) (ha : ¬ R.IsClaim a)
    (hclaim : m R.claim ≠ 0 → m' R.claim ≠ 0)
    (howner : ∀ x v, a = .store (R.field x) v → R.Claimed (pasts i))
    (hraised : R.ready (m' R.flag) →
      R.ready (m R.flag) ∨ R.Claimed (pasts i) ∧ R.Full (pasts i) ∧ R.Raised [a])
    (hnew : R.Agrees m' a) (hold : ∀ j, ∀ b ∈ pasts j, R.Agrees m' b) :
    R.Intact m' (Function.update pasts i (a :: pasts i)) where
  taken j hj := hclaim (h.taken j ((claimed_after hj).resolve_left fun h => ha h.2))
  single j k hj hk := h.single j k ((claimed_after hj).resolve_left fun h => ha h.2)
    ((claimed_after hk).resolve_left fun h => ha h.2)
  owner j x v hmem := by
    rcases mem_after.mp hmem with ⟨rfl, heq⟩ | hmem
    · exact (howner x v heq.symm).mono subset_after
    · exact (h.owner j x v hmem).mono subset_after
  raised hready := by
    rcases hraised hready with hready | ⟨hclaimed, hfull, hraised⟩
    · obtain ⟨j, hclaimed, hfull, hraised⟩ := h.raised hready
      exact ⟨j, hclaimed.mono subset_after, hfull.mono subset_after, hraised.mono subset_after⟩
    · refine ⟨i, hclaimed.mono subset_after, hfull.mono subset_after, hraised.mono fun b hb => ?_⟩
      exact mem_after.mpr (.inl ⟨rfl, List.mem_singleton.mp hb⟩)
  agrees j b hb := by
    rcases mem_after.mp hb with ⟨-, rfl⟩ | hb
    · exact hnew
    · exact hold j b hb

/-- A call that has not stored every field finds the flag down if it has the claim. -/
theorem Intact.down (h : R.Intact m pasts) (hclaimed : R.Claimed (pasts i))
    (hnot : ¬ (R.Full (pasts i) ∧ R.Raised (pasts i))) : ¬ R.ready (m R.flag) := by
  intro hready
  obtain ⟨j, hj, hfull, hraised⟩ := h.raised hready
  obtain rfl := h.single j i hj hclaimed
  exact hnot ⟨hfull, hraised⟩

variable [DecidableEq Loc]

/-- The operation that takes the claim, which nobody has. -/
theorem Intact.win (h : R.Intact m pasts) (ha : R.IsClaim a) (hfree : m R.claim = 0)
    (hset : a.apply m R.claim ≠ 0) (hdown : R.claim = R.flag → ¬ R.ready (a.apply m R.flag)) :
    R.Intact (a.apply m) (Function.update pasts i (a :: pasts i)) := by
  have hnone : ∀ j, ¬ R.Claimed (pasts j) := fun j hj => h.taken j hj hfree
  have hnotReady : ¬ R.ready (m R.flag) := by
    intro hready
    obtain ⟨j, hj, -⟩ := h.raised hready
    exact hnone j hj
  have hfirst : ∀ j, R.Claimed (Function.update pasts i (a :: pasts i) j) → j = i :=
    fun j hj => ((claimed_after hj).resolve_right (hnone j)).1
  have hloc : a.loc = R.claim ∧ R.Agrees (a.apply m) a ∧ ∀ x v, a ≠ .store (R.field x) v := by
    cases a with
    | load l v => cases ha
    | store l v => cases ha
    | exchange l e n success =>
      cases success with
      | false => cases ha
      | true => exact ⟨ha.1, nofun, nofun⟩
    | swap l n old => exact ⟨ha.1, trivial, nofun⟩
  obtain ⟨hloc, hnew, hstore⟩ := hloc
  refine ⟨fun _ _ => hset, fun j k hj hk => (hfirst j hj).trans (hfirst k hk).symm, ?_, ?_, ?_⟩
  · intro j x v hmem
    rcases mem_after.mp hmem with ⟨-, heq⟩ | hmem
    · exact absurd heq.symm (hstore x v)
    · exact absurd (h.owner j x v hmem) (hnone j)
  · intro hready
    by_cases heq : R.claim = R.flag
    · exact absurd hready (hdown heq)
    · rw [a.apply_of_ne (hloc.symm ▸ Ne.symm heq)] at hready
      exact absurd hready hnotReady
  · intro j b hb
    rcases mem_after.mp hb with ⟨-, rfl⟩ | hb
    · exact hnew
    · refine (h.agrees j b hb).keep (fun hready => absurd hready hnotReady) fun x => ?_
      exact a.apply_of_ne (hloc.symm ▸ R.field_ne_claim x) m

theorem Intact.step (h : R.Intact m pasts) (henabled : a.Enabled m)
    (hok : R.Orderly (pasts i) arg a) :
    R.Intact (a.apply m) (Function.update pasts i (a :: pasts i)) := by
  cases hok with
  | load hsaw =>
    refine h.keep id id nofun .inl ⟨?_, ?_⟩ h.agrees
    · rintro rfl hv
      exact henabled ▸ hv
    · rintro x rfl
      obtain ⟨u, hu, hmem⟩ := hsaw x rfl
      exact ⟨(h.agrees i _ hmem).1 rfl hu, henabled⟩
  | @tryClaim n success hn hflag =>
    cases success with
    | false => exact h.keep id id nofun .inl (fun _ => id) h.agrees
    | true =>
      refine h.win ⟨rfl, rfl⟩ (henabled.mp rfl) ?_ fun heq => ?_
      · rwa [Action.apply_exchange_self]
      · rw [← heq, Action.apply_exchange_self]
        exact hflag heq
  | @swapClaim n old hn hflag =>
    have hset : (Action.swap R.claim n old).apply m R.claim ≠ 0 := by rwa [Action.apply_swap_self]
    by_cases hfree : old = 0
    · exact h.win ⟨rfl, hfree⟩ (henabled.symm.trans hfree) hset fun heq => absurd heq.symm hflag
    · -- The claim was taken, and is marked once more.
      have hsame := (Action.swap R.claim n old).apply_of_ne hflag m
      refine h.keep (fun hclaim => hfree hclaim.2) (fun _ => hset) nofun (fun hready => ?_) trivial
        fun j b hb => (h.agrees j b hb).keep (fun hready => hsame.symm ▸ hready) fun x => ?_
      · exact .inl (hsame ▸ hready)
      · exact Action.apply_of_ne _ (R.field_ne_claim x) m
  | @field l v x w hl hv harg hclaimed hfresh =>
    subst hl
    have hdown := h.down hclaimed fun hboth => (hboth.1 x).elim hfresh
    have hflag := (Action.store (R.field x) v).apply_of_ne (R.field_ne_flag x).symm m
    refine h.keep id ?_ (fun _ _ _ => hclaimed) (fun hready => ?_) ?_ fun j b hb => ?_
    · rw [Action.apply_of_ne _ (R.field_ne_claim x).symm]
      exact id
    · exact absurd (hflag ▸ hready) hdown
    · intro y hy
      exact (Action.apply_store_self (R.field x) v m).symm
    · have hagrees := h.agrees j b hb
      cases b with
      | load l u =>
        refine ⟨fun hl hu => absurd (hagrees.1 hl hu) hdown, fun y hy => ?_⟩
        exact absurd (hagrees.2 y hy).1 hdown
      | store l u =>
        rintro y rfl
        by_cases hy : y = x
        · -- Only the winner stores fields, and it has not yet stored this one.
          subst hy
          obtain rfl := h.single j i (h.owner j y u hb) hclaimed
          exact absurd hb (hfresh u)
        · rw [Action.apply_of_ne _ fun heq => hy (R.field_injective heq)]
          exact hagrees y rfl
      | exchange l e n success => exact hagrees
      | swap l n old => trivial
  | @other l v hclaim hflag hfield =>
    have hsame : ∀ l' ≠ l, (Action.store l v).apply m l' = m l' :=
      fun l' hl' => Action.apply_of_ne _ hl' m
    refine h.keep id ?_ (fun x u heq => ?_) (fun hready => ?_) ?_ fun j b hb => ?_
    · rw [hsame _ hclaim.symm]
      exact id
    · cases heq
      exact absurd rfl (hfield x)
    · exact .inl (hsame _ hflag.symm ▸ hready)
    · exact fun x hx => absurd hx (hfield x)
    · refine (h.agrees j b hb).keep (fun hready => ?_) fun x => hsame _ (hfield x).symm
      exact (hsame _ hflag.symm).symm ▸ hready
  | @flag l v hl hv hclaimed hfull hne =>
    subst hl
    have hset := Action.apply_store_self R.flag v m
    have hfields : ∀ x, (Action.store R.flag v).apply m (R.field x) = m (R.field x) :=
      fun x => Action.apply_of_ne _ (R.field_ne_flag x) m
    refine h.keep id (fun htaken => ?_) ?_ (fun _ => ?_) ?_ fun j b hb => ?_
    · by_cases heq : R.claim = R.flag
      · rw [heq, hset]
        exact hne heq
      · rwa [Action.apply_of_ne _ heq]
    · exact fun _ _ _ => hclaimed
    · exact .inr ⟨hclaimed, hfull, v, hv, .inl List.mem_cons_self⟩
    · exact fun x hx => absurd hx.symm (R.field_ne_flag x)
    · exact (h.agrees j b hb).keep (fun _ => hset.symm ▸ hv) hfields
  | @tryFlag e v success hv hclaimed hfull hfirst hne he =>
    have hdown := h.down hclaimed fun hboth => hfirst hboth.2
    cases success with
    | false => exact absurd (henabled.mpr (he _ hdown)) nofun
    | true =>
      refine h.keep (fun hclaim => hne hclaim.1.symm) ?_ nofun (fun _ => ?_) nofun fun j b hb => ?_
      · rw [Action.apply_of_ne _ hne]
        exact id
      · exact .inr ⟨hclaimed, hfull, v, hv, .inr ⟨e, List.mem_cons_self⟩⟩
      · refine (h.agrees j b hb).keep (fun hready => absurd hready hdown) fun x => ?_
        exact Action.apply_of_ne _ (R.field_ne_flag x) m

variable (R) in
/-- Every call keeps its promises, whatever its argument. -/
def discipline : Discipline fun _ : Loc => Nat where
  ok past a := ∃ arg, R.Orderly past arg a
  Inv := R.Intact
  step hinv henabled hok := hok.elim fun _ => hinv.step henabled

end Step

/-! ## Calls -/

variable (R) in
/-- The call has seen the flag up and loaded these fields. -/
structure Read (v : ι → Nat) (past : List (Action fun _ : Loc => Nat)) : Prop where
  saw : R.Saw past
  loads : ∀ x, .load (R.field x) (v x) ∈ past

variable (R) in
/-- What a call owes with its reply. The exchange that sets the flag does not fail, but the call
alone cannot know that. -/
structure Owed (r : Reply) (past : List (Action fun _ : Loc => Nat)) : Prop where
  whole : ∀ v, R.value r = some v → R.Read v past
  accepted : R.verdict r = some true → R.Claimed past
  refused : R.verdict r = some false →
    ¬ R.Claimed past ∨ R.claim ≠ R.flag ∧ ∃ e v, .exchange R.flag e v false ∈ past

variable {m : Loc → Nat} {env : Env} {history : List (Event (fun _ : Loc => Nat) Tid Call Reply)}

/-- What is published is the whole argument of the winner. -/
theorem Intact.winner (x₀ : ι) (h : R.Intact m (Discipline.pastsOf history))
    (htraced : Traced (fun call => (R.Orderly · (R.arg call))) (fun _ => R.Owed) history)
    (hready : R.ready (m R.flag)) :
    ∃ i, R.Won i history ∧ R.arg i.call = some fun x => m (R.field x) := by
  obtain ⟨n, ⟨a, ha, hclaim⟩, hfull, -⟩ := h.raised hready
  obtain ⟨i, rfl, hact⟩ := Discipline.mem_pastsOf.mp ha
  have hstored : ∀ x, ∃ w, R.arg i.call = some w ∧ m (R.field x) = w x := by
    intro x
    obtain ⟨v, hv⟩ := hfull x
    obtain ⟨j, hnumber, hstore⟩ := Discipline.mem_pastsOf.mp hv
    obtain rfl : j = i := htraced.distinct _ hstore _ hact hnumber
    obtain ⟨older, hsuffix⟩ := suffix_of_mem hstore
    obtain ⟨w, harg, rfl⟩ := (htraced.act j _ older hsuffix).stored
    exact ⟨w, harg, (h.agrees _ _ hv x rfl).symm⟩
  obtain ⟨w, harg, -⟩ := hstored x₀
  refine ⟨i, ⟨a, hclaim, hact⟩, harg.trans (congrArg some (funext fun x => ?_))⟩
  obtain ⟨w', harg', hx⟩ := hstored x
  rw [harg] at harg'
  rw [hx, Option.some.inj harg']

variable [DecidableEq Loc] [DecidableEq Tid] {S : System (fun _ : Loc => Nat) Tid Call Reply Env}
  {c : Config (fun _ : Loc => Nat) Tid Call Reply Env}

/-- The record, which has a field, is never torn: from a start with the flag down, in every
reachable state. -/
theorem untorn (x₀ : ι) (hcode : ∀ call, (S.code call).Along (R.Orderly · (R.arg call)) R.Owed [])
    (hdown : ¬ R.ready (m R.flag)) (hreach : Reach S ⟨m, env, []⟩ c) :
    R.Untorn c.shared.history := by
  have htraced := traced hcode hreach
  have hinit : R.Intact m fun _ => [] := by
    have hnone : ¬ R.Claimed [] := by
      rintro ⟨a, ha, -⟩
      cases ha
    exact ⟨fun _ h => absurd h hnone, fun _ _ h => absurd h hnone, nofun,
      fun hready => absurd hready hdown, nofun⟩
  have hcode' : ∀ call, (S.code call).Along R.discipline.ok (fun r past => R.Owed r past) [] :=
    fun call => (hcode call).imp (P := fun _ => True) (fun _ _ _ h => ⟨⟨_, h⟩, trivial⟩)
      (fun _ _ _ h => h) trivial
  have hintact : R.Intact c.shared.mem (Discipline.pastsOf c.shared.history) :=
    (R.discipline.holds hcode' hinit hreach).1
  have hpast : ∀ {i a}, .act i a ∈ c.shared.history →
      a ∈ Discipline.pastsOf c.shared.history i.number :=
    fun hact => Discipline.mem_pastsOf.mpr ⟨_, rfl, hact⟩
  have hown : ∀ {j r older a}, .ret j r :: older <:+ c.shared.history → a ∈ own j older →
      .act j a ∈ c.shared.history :=
    fun hret ha => hret.subset (List.mem_cons_of_mem _ (htraced.mem_of_own ha hret rfl))
  have hwhole : ∀ j r v, .ret j r ∈ c.shared.history → R.value r = some v →
      ∃ i, R.Won i c.shared.history ∧ R.arg i.call = some v := by
    intro j r v hret hv
    obtain ⟨older, hret⟩ := suffix_of_mem hret
    obtain ⟨⟨u, hu, hload⟩, hloads⟩ := (htraced.ret j r older hret).whole v hv
    have hagrees : ∀ {a}, a ∈ own j older → R.Agrees c.shared.mem a :=
      fun ha => hintact.agrees _ _ (hpast (hown hret ha))
    have hfields : (fun x => c.shared.mem (R.field x)) = v :=
      funext fun x => ((hagrees (hloads x)).2 x rfl).2.symm
    exact hfields ▸ hintact.winner x₀ htraced ((hagrees hload).1 rfl hu)
  have hsingle : ∀ i j, R.Won i c.shared.history → R.Won j c.shared.history → i = j := by
    rintro i j ⟨a, ha, hi⟩ ⟨b, hb, hj⟩
    exact htraced.distinct _ hi _ hj (hintact.single _ _ ⟨a, hpast hi, ha⟩ ⟨b, hpast hj, hb⟩)
  refine ⟨hsingle, hwhole, fun j r v j' r' v' hret hv hret' hv' => ?_, fun i r b hret hb => ?_⟩
  · obtain ⟨i, hwon, harg⟩ := hwhole j r v hret hv
    obtain ⟨i', hwon', harg'⟩ := hwhole j' r' v' hret' hv'
    rw [hsingle i i' hwon hwon', harg'] at harg
    exact (Option.some.inj harg).symm
  · obtain ⟨older, hret⟩ := suffix_of_mem hret
    have howed := htraced.ret i r older hret
    cases b with
    | true =>
      obtain ⟨a, ha, hclaim⟩ := howed.accepted hb
      exact ⟨fun _ => ⟨a, hclaim, hown hret ha⟩, fun _ => rfl⟩
    | false =>
      refine ⟨nofun, fun ⟨a, hclaim, hact⟩ => ?_⟩
      rcases howed.refused hb with hnot | ⟨hne, e, v, hfailed⟩
      · exact absurd ⟨a, mem_own (htraced.last i r older hret a hact), hclaim⟩ hnot
      · exact absurd (hintact.agrees _ _ (hpast (hown hret hfailed)) rfl rfl) hne

end Record

end PublishOnce
