/-
# Tvisor.Lib.Intervals -- canonical lists of half-open intervals over a linear order

A type of intervals is any type with two bounds and a hull operation (`Span`). A list of such
intervals is *separated* when each one ends strictly before the next one starts: sorted, disjoint
and without two neighbours that could have been written as one. Separated lists are the canonical
form of a finite union of intervals, and the three operations below keep it:

* `coalesce` pushes an interval to the right and swallows everything it touches,
* `place` puts an interval at its sorted position and coalesces around it,
* `gaps` lists the maximal pieces of a window that a separated list leaves free.

Every result is stated through `cover`, the set of points of a list, so nothing downstream has to
look at the order of the comparisons again.
-/
import Mathlib.Algebra.GroupWithZero.Nat
import Mathlib.Order.CompletePartialOrder
import Mathlib.Order.Lattice
import Mathlib.Order.MinMax
import Mathlib.Data.List.Basic
import Mathlib.Data.List.Pairwise
import Mathlib.Data.List.Sort
import Mathlib.Data.Set.Lattice
import Mathlib.Tactic.Order

namespace Intervals

/-- Types whose values are nonempty half-open intervals `[lo, hi)`, with the hull of two of them. -/
class Span (β : Type*) (α : outParam Type*) [LinearOrder α] where
  lo : β → α
  hi : β → α
  lo_lt_hi : ∀ b, lo b < hi b
  join : β → β → β
  lo_join : ∀ a b, lo (join a b) = min (lo a) (lo b)
  hi_join : ∀ a b, hi (join a b) = max (hi a) (hi b)

open Intervals.Span

variable {α β : Type*} [LinearOrder α] [Span β α]

/-! ## Points, covers and separation -/

variable {l l' : List β} {x : α} {b a : β}

/-- The point `x` lies in the interval `b`. -/
def Within (x : α) (b : β) : Prop := lo b ≤ x ∧ x < hi b

/-- Two intervals touch when they overlap or when one starts where the other ends. -/
def Touches (a b : β) : Prop := lo a ≤ hi b ∧ lo b ≤ hi a

instance (a b : β) : Decidable (Touches a b) := inferInstanceAs (Decidable (_ ∧ _))

theorem touches_comm : Touches a b ↔ Touches b a := And.comm

theorem lt_of_not_touches (h : ¬ Touches a b) (hle : lo a ≤ hi b) : hi a < lo b :=
  lt_of_not_ge fun hba => h ⟨hle, hba⟩

/-- The set of points of a list of intervals. -/
def cover (l : List β) : Set α := {x | ∃ b ∈ l, Within x b}

/-- Strictly sorted, pairwise disjoint and pairwise non-adjacent. -/
def Separated (l : List β) : Prop := l.Pairwise fun a b => hi a < lo b

theorem mem_cover : x ∈ cover l ↔ ∃ b ∈ l, Within x b := Iff.rfl

@[simp] theorem cover_nil : cover ([] : List β) = ∅ := by
  ext x; simp [mem_cover]

@[simp] theorem mem_cover_cons :
    x ∈ cover (b :: l) ↔ Within x b ∨ x ∈ cover l := by
  simp [mem_cover]

@[simp] theorem mem_cover_append :
    x ∈ cover (l ++ l') ↔ x ∈ cover l ∨ x ∈ cover l' := by
  simp only [mem_cover, List.mem_append, or_and_right, exists_or]

theorem separated_cons :
    Separated (b :: l) ↔ (∀ c ∈ l, hi b < lo c) ∧ Separated l := List.pairwise_cons

theorem separated_append :
    Separated (l ++ l') ↔ Separated l ∧ Separated l' ∧ ∀ a ∈ l, ∀ b ∈ l', hi a < lo b :=
  List.pairwise_append

/-- The hull of two touching intervals has exactly the points of the two. -/
theorem within_join (h : Touches a b) :
    Within x (join a b) ↔ Within x a ∨ Within x b := by
  obtain ⟨hab, hba⟩ := h
  unfold Within
  rw [lo_join, hi_join, min_le_iff, lt_max_iff]
  constructor
  · rintro ⟨h1 | h1, h2 | h2⟩
    · exact .inl ⟨h1, h2⟩
    · rcases lt_or_ge x (hi a) with h | h
      · exact .inl ⟨h1, h⟩
      · exact .inr ⟨hba.trans h, h2⟩
    · rcases lt_or_ge x (hi b) with h | h
      · exact .inr ⟨h1, h⟩
      · exact .inl ⟨hab.trans h, h2⟩
    · exact .inr ⟨h1, h2⟩
  · rintro (⟨h1, h2⟩ | ⟨h1, h2⟩)
    · exact ⟨.inl h1, .inl h2⟩
    · exact ⟨.inr h1, .inr h2⟩

/-- Two different members of a separated list lie strictly on different sides of a gap. -/
theorem Separated.lt_or_lt (hl : Separated l) (ha : a ∈ l) (hb : b ∈ l) (hne : a ≠ b) :
    hi a < lo b ∨ hi b < lo a := by
  let R : β → β → Prop := fun a b => hi a < lo b ∨ hi b < lo a
  have : Std.Symm R := ⟨fun _ _ => Or.symm⟩
  have hR : l.Pairwise R := List.Pairwise.imp Or.inl hl
  exact hR.forall ha hb hne

/-- A separated list has room between its intervals, so a convex piece of its cover lies in one of
them. This is where non-adjacency is used. -/
theorem exists_span_of_subset_cover (hl : Separated l) {y : α} (hxy : x < y)
    (h : ∀ z, x ≤ z → z < y → z ∈ cover l) : ∃ b ∈ l, lo b ≤ x ∧ y ≤ hi b := by
  obtain ⟨b, hb, hbx, hxb⟩ := h x le_rfl hxy
  refine ⟨b, hb, hbx, ?_⟩
  by_contra hlt
  rw [not_le] at hlt
  -- The end of `b` would itself be covered, by an interval that starts no later than it.
  obtain ⟨c, hc, hcb, hbc⟩ := h (hi b) hxb.le hlt
  rcases eq_or_ne b c with rfl | hne
  · exact lt_irrefl _ hbc
  · rcases hl.lt_or_lt hb hc hne with h1 | h1
    · exact absurd hcb (not_le.mpr h1)
    · exact absurd (hbc.trans h1) (not_lt.mpr (lo_lt_hi b).le)

/-- Two separated lists of the same points have the same intervals: the one around `a` in the other
list lies in turn inside one of this list, which can only be `a`. -/
theorem Separated.mem_of_cover_eq (hext : ∀ a b : β, lo a = lo b → hi a = hi b → a = b)
    (hl : Separated l) (hl' : Separated l') (h : ∀ x, x ∈ cover l ↔ x ∈ cover l') (ha : a ∈ l) :
    a ∈ l' := by
  obtain ⟨b, hb, hba, hab⟩ := exists_span_of_subset_cover hl' (lo_lt_hi a)
    fun z hlo hhi => (h z).mp ⟨a, ha, hlo, hhi⟩
  obtain ⟨c, hc, hcb, hbc⟩ := exists_span_of_subset_cover hl (lo_lt_hi b)
    fun z hlo hhi => (h z).mpr ⟨b, hb, hlo, hhi⟩
  have hca : c = a := by
    by_contra hne
    have := lo_lt_hi a
    rcases hl.lt_or_lt hc ha hne with hlt | hlt <;> order
  subst hca
  obtain rfl := hext c b (le_antisymm hcb hba) (le_antisymm hab hbc)
  exact hb

/-- Separated lists are a canonical form. -/
theorem Separated.ext (hext : ∀ a b : β, lo a = lo b → hi a = hi b → a = b) (hl : Separated l)
    (hl' : Separated l') (h : ∀ x, x ∈ cover l ↔ x ∈ cover l') : l = l' := by
  have : Std.Irrefl fun a b : β => hi a < lo b := ⟨fun a => not_lt.mpr (lo_lt_hi a).le⟩
  have : Std.Antisymm fun a b : β => hi a < lo b := by
    refine ⟨fun a b hab hba => ?_⟩
    have := lo_lt_hi a
    have := lo_lt_hi b
    order
  refine List.Pairwise.eq_of_mem_iff hl hl' fun a => ⟨?_, ?_⟩
  · exact hl.mem_of_cover_eq hext hl' h
  · exact hl'.mem_of_cover_eq hext hl fun x => (h x).symm

/-! ## Coalescing to the right -/

/-- Grow `m` over every following interval it touches; stop at the first one it does not. -/
def coalesce (m : β) : List β → List β
  | [] => [m]
  | c :: rest => if Touches m c then coalesce (join m c) rest else m :: c :: rest

theorem mem_cover_coalesce (m : β) (rest : List β) :
    x ∈ cover (coalesce m rest) ↔ Within x m ∨ x ∈ cover rest := by
  induction rest generalizing m with
  | nil => simp [coalesce]
  | cons c rest ih =>
    unfold coalesce
    split
    · next h => rw [ih, within_join h, mem_cover_cons, or_assoc]
    · simp

/-- Coalescing an interval that starts no later than the list gives a separated list that starts no
earlier than the interval did. -/
theorem coalesce_spec {m : β} {rest : List β} (hrest : Separated rest)
    (hm : ∀ c ∈ rest, lo m ≤ lo c) :
    Separated (coalesce m rest) ∧ ∀ b ∈ coalesce m rest, lo m ≤ lo b := by
  induction rest generalizing m with
  | nil => exact ⟨List.pairwise_singleton _ _, by simp [coalesce]⟩
  | cons c rest ih =>
    obtain ⟨hc, hrest⟩ := separated_cons.mp hrest
    have hmc : lo m ≤ lo c := hm c List.mem_cons_self
    unfold coalesce
    split
    · have hlo : lo (join m c) = lo m := by rw [lo_join, min_eq_left hmc]
      have h := ih (m := join m c) hrest (fun d hd => by
        rw [hlo]
        exact hmc.trans ((lo_lt_hi c).trans (hc d hd)).le)
      rwa [hlo] at h
    · rename_i hno
      have hgap := lt_of_not_touches hno (hmc.trans (lo_lt_hi c).le)
      refine ⟨separated_cons.mpr ⟨?_, separated_cons.mpr ⟨hc, hrest⟩⟩, ?_⟩
      · intro d hd
        rcases List.mem_cons.mp hd with rfl | hd
        · exact hgap
        · exact hgap.trans ((lo_lt_hi c).trans (hc d hd))
      · intro d hd
        rcases List.mem_cons.mp hd with rfl | hd
        · exact le_rfl
        · exact hm d hd

/-! ## Placing one interval in a separated list -/

/-- Put `x` before the intervals `after`, none of which starts earlier, merging it into the first of
them when they touch. -/
def placeRight (x : β) : List β → List β
  | [] => [x]
  | c :: rest => if Touches c x then coalesce (join c x) rest else x :: c :: rest

/-- Put `x` between the intervals `before` that start earlier and the intervals `after` that do not,
merging it into the last of the former or the first of the latter when they touch. -/
def place (x : β) (before after : List β) : List β :=
  match before.getLast? with
  | none => placeRight x after
  | some p =>
      if Touches p x then before.dropLast ++ coalesce (join p x) after
      else before ++ placeRight x after

theorem mem_cover_placeRight (x : β) (after : List β) {z : α} :
    z ∈ cover (placeRight x after) ↔ Within z x ∨ z ∈ cover after := by
  cases after with
  | nil => simp [placeRight]
  | cons c rest =>
    rw [placeRight]
    split
    · next h => rw [mem_cover_coalesce, within_join h, mem_cover_cons, or_assoc, or_left_comm]
    · simp

theorem placeRight_spec {x : β} {after : List β} (hafter : Separated after)
    (hx : ∀ c ∈ after, lo x ≤ lo c) :
    Separated (placeRight x after) ∧ ∀ b ∈ placeRight x after, lo x ≤ lo b := by
  cases after with
  | nil => exact ⟨List.pairwise_singleton _ _, by simp [placeRight]⟩
  | cons c rest =>
    obtain ⟨hc, hrest⟩ := separated_cons.mp hafter
    have hxc : lo x ≤ lo c := hx c List.mem_cons_self
    rw [placeRight]
    split
    · have hlo : lo (join c x) = lo x := by rw [lo_join, min_eq_right hxc]
      have h := coalesce_spec (m := join c x) hrest (fun d hd => by
        rw [hlo]
        exact hxc.trans ((lo_lt_hi c).trans (hc d hd)).le)
      rwa [hlo] at h
    · rename_i hno
      have hkeep : coalesce x (c :: rest) = x :: c :: rest := by
        rw [coalesce, if_neg (mt touches_comm.mp hno)]
      rw [← hkeep]
      exact coalesce_spec hafter hx

section Place

variable {x : β} {before after : List β}

theorem place_concat_of_touches {init : List β} {p : β} (h : Touches p x) :
    place x (init ++ [p]) after = init ++ coalesce (join p x) after := by
  simp [place, h]

/-- When the interval before it does not touch, only the right side matters. -/
theorem place_of_not_touches (h : ∀ p, before.getLast? = some p → ¬ Touches p x) :
    place x before after = before ++ placeRight x after := by
  unfold place
  split
  · next hnil => rw [List.getLast?_eq_none_iff.mp hnil, List.nil_append]
  · next p hp => rw [if_neg (h p hp)]

theorem placeRight_of_not_touches (h : ∀ c, after.head? = some c → ¬ Touches c x) :
    placeRight x after = x :: after := by
  cases after with
  | nil => rfl
  | cons c rest => rw [placeRight, if_neg (h c rfl)]

/-- Only the two neighbours of the insertion point can touch the interval. -/
theorem not_touches_of_neighbours (hsep : Separated (before ++ after))
    (hbefore : ∀ a ∈ before, lo a < lo x) (hafter : ∀ c ∈ after, lo x ≤ lo c)
    (hleft : ∀ p, before.getLast? = some p → ¬ Touches p x)
    (hright : ∀ c, after.head? = some c → ¬ Touches c x) :
    ∀ b ∈ before ++ after, ¬ Touches b x := by
  intro b hb
  obtain ⟨hsepB, hsepA, -⟩ := separated_append.mp hsep
  rcases List.mem_append.mp hb with hb | hb
  · obtain ⟨init, p, rfl⟩ := (List.eq_nil_or_concat' before).resolve_left (List.ne_nil_of_mem hb)
    have hp : ¬ Touches p x := hleft p (by simp)
    rcases List.mem_append.mp hb with hinit | hlast
    · -- An earlier interval ends before the last one starts, and that one ends before `x`.
      have hbp := (separated_append.mp hsepB).2.2 b hinit p List.mem_cons_self
      have hpx := lt_of_not_touches hp ((hbefore p (by simp)).trans (lo_lt_hi x)).le
      exact fun ht => absurd ht.2 (not_le.mpr ((hbp.trans (lo_lt_hi p)).trans hpx))
    · rwa [List.mem_singleton.mp hlast]
  · cases after with
    | nil => exact absurd hb List.not_mem_nil
    | cons c rest =>
      have hc : ¬ Touches c x := hright c rfl
      rcases List.mem_cons.mp hb with rfl | hrest
      · exact hc
      · have hcb := (separated_cons.mp hsepA).1 b hrest
        have hxc := lt_of_not_touches (mt touches_comm.mp hc)
          ((hafter c List.mem_cons_self).trans (lo_lt_hi c).le)
        exact fun ht => absurd ht.1 (not_le.mpr (hxc.trans ((lo_lt_hi c).trans hcb)))

theorem mem_cover_place {z : α} :
    z ∈ cover (place x before after) ↔ Within z x ∨ z ∈ cover (before ++ after) := by
  unfold place
  split
  · rename_i h
    rw [List.getLast?_eq_none_iff.mp h, mem_cover_placeRight, List.nil_append]
  · rename_i p h
    obtain ⟨init, rfl⟩ := List.getLast?_eq_some_iff.mp h
    split
    · rename_i ht
      simp only [List.dropLast_concat, mem_cover_append, mem_cover_coalesce, within_join ht,
        mem_cover_cons, cover_nil, Set.mem_empty_iff_false]
      tauto
    · simp only [mem_cover_append, mem_cover_placeRight]
      tauto

theorem separated_place (hsep : Separated (before ++ after)) (hbefore : ∀ a ∈ before, lo a < lo x)
    (hafter : ∀ c ∈ after, lo x ≤ lo c) : Separated (place x before after) := by
  unfold place
  split
  · rename_i h
    rw [List.getLast?_eq_none_iff.mp h, List.nil_append] at hsep
    exact (placeRight_spec hsep hafter).1
  · rename_i p h
    obtain ⟨init, rfl⟩ := List.getLast?_eq_some_iff.mp h
    obtain ⟨hinit, hright, hcross⟩ := separated_append.mp hsep
    obtain ⟨hinit', -, hinitp⟩ := separated_append.mp hinit
    have hpx : lo p < lo x := hbefore p (by simp)
    split
    · have hlo : lo (join p x) = lo p := by rw [lo_join, min_eq_left hpx.le]
      obtain ⟨h1, h2⟩ := coalesce_spec (m := join p x) hright (fun c hc => by
        rw [hlo]
        exact hpx.le.trans (hafter c hc))
      rw [List.dropLast_concat, separated_append]
      refine ⟨hinit', h1, fun a ha b hb => ?_⟩
      rw [hlo] at h2
      exact (hinitp a ha p List.mem_cons_self).trans_le (h2 b hb)
    · rename_i hno
      obtain ⟨h1, h2⟩ := placeRight_spec hright hafter
      have hgap := lt_of_not_touches hno (hpx.trans (lo_lt_hi x)).le
      rw [separated_append]
      refine ⟨hinit, h1, fun a ha b hb => lt_of_lt_of_le ?_ (h2 b hb)⟩
      rcases List.mem_append.mp ha with ha | ha
      · exact ((hinitp a ha p List.mem_cons_self).trans (lo_lt_hi p)).trans hgap
      · rwa [List.mem_singleton.mp ha]

end Place

/-! ## What a separated list leaves free in a window -/

section Gaps

variable {stop : α} (piece : ∀ a b : α, a < b → b ≤ stop → β)

/-- Sweep the list with a cursor and cut out the pieces of `[cursor, stop)` it leaves free. An
interval that ends before the cursor or starts past the window is skipped. -/
def gaps (cursor : α) : List β → List β
  | [] => if h : cursor < stop then [piece cursor stop h le_rfl] else []
  | r :: rest =>
      if h : hi r ≤ cursor ∨ stop ≤ lo r then gaps cursor rest
      else
        (if hc : cursor < lo r then [piece cursor (lo r) hc (not_le.mp (not_or.mp h).2).le]
          else []) ++
          (if stop ≤ hi r then [] else gaps (hi r) rest)

variable (hlo : ∀ a b h h', lo (piece a b h h') = a) (hhi : ∀ a b h h', hi (piece a b h h') = b)

include hlo hhi

/-- The gaps stay inside the window. -/
theorem gaps_bounds (cursor : α) (l : List β) :
    ∀ g ∈ gaps piece cursor l, cursor ≤ lo g ∧ hi g ≤ stop := by
  induction l generalizing cursor with
  | nil =>
    intro g hg
    unfold gaps at hg
    split at hg
    · rw [List.mem_singleton.mp hg, hlo, hhi]
      exact ⟨le_rfl, le_rfl⟩
    · exact absurd hg List.not_mem_nil
  | cons r rest ih =>
    intro g hg
    unfold gaps at hg
    split at hg
    · exact ih cursor g hg
    · rename_i hin
      rw [not_or, not_le, not_le] at hin
      rcases List.mem_append.mp hg with hg | hg
      · split at hg
        · rw [List.mem_singleton.mp hg, hlo, hhi]
          exact ⟨le_rfl, hin.2.le⟩
        · exact absurd hg List.not_mem_nil
      · split at hg
        · exact absurd hg List.not_mem_nil
        · obtain ⟨h1, h2⟩ := ih (hi r) g hg
          exact ⟨hin.1.le.trans h1, h2⟩

/-- The gaps have exactly the points of the window that the list does not cover. -/
theorem mem_cover_gaps {cursor : α} (hl : Separated l) :
    x ∈ cover (gaps piece cursor l) ↔ cursor ≤ x ∧ x < stop ∧ x ∉ cover l := by
  induction l generalizing cursor with
  | nil =>
    unfold gaps
    split
    · simp [Within, hlo, hhi]
    · rename_i h
      simp only [cover_nil, Set.mem_empty_iff_false, not_false_eq_true, and_true, false_iff,
        not_and, not_lt]
      exact fun hx => (not_lt.mp h).trans hx
  | cons r rest ih =>
    obtain ⟨hr, hrest⟩ := separated_cons.mp hl
    have hlohi : lo r < hi r := lo_lt_hi r
    unfold gaps
    split
    · rename_i hout
      rw [ih hrest, mem_cover_cons, not_or]
      -- A skipped interval has no point of the window.
      have hskip : cursor ≤ x → x < stop → ¬ Within x r := by
        rintro hcx hxs ⟨h1, h2⟩
        rcases hout with h | h
        · exact absurd (h2.trans_le h) (not_lt.mpr hcx)
        · exact absurd (h.trans h1) (not_le.mpr hxs)
      tauto
    · rename_i hin
      rw [not_or, not_le, not_le] at hin
      -- Left of `r` nothing further right is covered.
      have hleft : x < lo r → x ∉ cover rest := by
        rintro hx ⟨c, hc, h1, -⟩
        exact absurd h1 (not_le.mpr (hx.trans (hlohi.trans (hr c hc))))
      have hhead : x ∈ cover (if hc : cursor < lo r then
          [piece cursor (lo r) hc hin.2.le] else []) ↔ cursor ≤ x ∧ x < lo r := by
        split
        · simp [Within, hlo, hhi]
        · rename_i hc
          simp only [cover_nil, Set.mem_empty_iff_false, false_iff, not_and, not_lt]
          exact fun hx => (not_lt.mp hc).trans hx
      have htail : x ∈ cover (if stop ≤ hi r then [] else gaps piece (hi r) rest) ↔
          hi r ≤ x ∧ x < stop ∧ x ∉ cover rest := by
        split
        · rename_i hs
          simp only [cover_nil, Set.mem_empty_iff_false, false_iff]
          rintro ⟨h1, h2, -⟩
          exact absurd (hs.trans h1) (not_le.mpr h2)
        · exact ih hrest
      rw [mem_cover_append, hhead, htail, mem_cover_cons, Within]
      constructor
      · rintro (⟨h1, h2⟩ | ⟨h1, h2, h3⟩)
        · refine ⟨h1, h2.trans hin.2, ?_⟩
          rintro (⟨h4, -⟩ | h4)
          · exact absurd h4 (not_le.mpr h2)
          · exact hleft h2 h4
        · refine ⟨hin.1.le.trans h1, h2, ?_⟩
          rintro (⟨-, h4⟩ | h4)
          · exact absurd h1 (not_le.mpr h4)
          · exact h3 h4
      · rintro ⟨h1, h2, h3⟩
        rw [not_or, not_and, not_lt] at h3
        rcases lt_or_ge x (lo r) with h4 | h4
        · exact .inl ⟨h1, h4⟩
        · exact .inr ⟨h3.1 h4, h2, h3.2⟩

theorem separated_gaps (cursor : α) (l : List β) : Separated (gaps piece cursor l) := by
  induction l generalizing cursor with
  | nil =>
    unfold gaps
    split
    · exact List.pairwise_singleton _ _
    · exact List.Pairwise.nil
  | cons r rest ih =>
    unfold gaps
    split
    · exact ih cursor
    · rw [separated_append]
      refine ⟨?_, ?_, ?_⟩
      · split
        · exact List.pairwise_singleton _ _
        · exact List.Pairwise.nil
      · split
        · exact List.Pairwise.nil
        · exact ih (hi r)
      · intro a ha b hb
        split at ha
        · split at hb
          · exact absurd hb List.not_mem_nil
          · rw [List.mem_singleton.mp ha, hhi]
            exact (lo_lt_hi r).trans_le (gaps_bounds piece hlo hhi (hi r) rest b hb).1
        · exact absurd ha List.not_mem_nil

omit hlo hhi in
/-- Every gap but the last is charged to the interval that ends it, and that interval starts
strictly inside the window. -/
theorem length_gaps_le (cursor : α) (l : List β) :
    (gaps piece cursor l).length ≤ l.countP (fun r => cursor < lo r ∧ lo r < stop) + 1 := by
  induction l generalizing cursor with
  | nil =>
    unfold gaps
    split <;> simp
  | cons r rest ih =>
    have hmono : ∀ c, cursor ≤ c → rest.countP (fun r => c < lo r ∧ lo r < stop) ≤
        rest.countP (fun r => cursor < lo r ∧ lo r < stop) := by
      intro c hc
      apply List.countP_mono_left
      intro x _ hx
      simp only [decide_eq_true_eq] at hx ⊢
      exact ⟨hc.trans_lt hx.1, hx.2⟩
    unfold gaps
    rw [List.countP_cons]
    split
    · exact (ih cursor).trans (by omega)
    · rename_i hin
      rw [not_or, not_le, not_le] at hin
      rw [List.length_append]
      have htail : (if stop ≤ hi r then [] else gaps piece (hi r) rest).length ≤
          rest.countP (fun r => cursor < lo r ∧ lo r < stop) + 1 := by
        split
        · simp
        · exact (ih (hi r)).trans (Nat.succ_le_succ (hmono (hi r) hin.1.le))
      have hhead : (if hc : cursor < lo r then
          [piece cursor (lo r) hc hin.2.le] else []).length ≤
          if decide (cursor < lo r ∧ lo r < stop) = true then 1 else 0 := by
        split
        · next hc => simp [hc, hin.2]
        · simp
      omega

end Gaps

/-! ## Windows that are themselves separated -/

/-- A point lies strictly inside at most one interval of a separated list. -/
theorem countP_interior_le_one (hl : Separated l) (x : α) :
    l.countP (fun b => lo b < x ∧ x < hi b) ≤ 1 := by
  induction l with
  | nil => simp
  | cons b rest ih =>
    obtain ⟨hb, hrest⟩ := separated_cons.mp hl
    rw [List.countP_cons]
    split
    · rename_i h
      have hnone : rest.countP (fun c => lo c < x ∧ x < hi c) = 0 := by
        rw [List.countP_eq_zero]
        intro c hc
        simp only [decide_eq_true_eq] at h ⊢
        exact fun hx => absurd (h.2.trans (hb c hc)) (not_lt.mpr hx.1.le)
      omega
    · exact (ih hrest)

/-- Charging each interval to the window it starts in counts it at most once. -/
theorem sum_countP_interior_le {windows : List β} (hw : Separated windows) (l : List β) :
    (windows.map fun w => l.countP fun r => lo w < lo r ∧ lo r < hi w).sum ≤ l.length := by
  induction l with
  | nil => simp [List.map_const']
  | cons r rest ih =>
    have hsplit : (windows.map fun w => (r :: rest).countP fun r => lo w < lo r ∧ lo r < hi w).sum
        = (windows.map fun w => rest.countP fun r => lo w < lo r ∧ lo r < hi w).sum
          + windows.countP fun w => lo w < lo r ∧ lo r < hi w := by
      clear ih hw
      induction windows with
      | nil => simp
      | cons w ws ih =>
        simp only [List.map_cons, List.sum_cons, List.countP_cons] at ih ⊢
        omega
    have hone := countP_interior_le_one hw (lo r)
    rw [hsplit, List.length_cons]
    omega

end Intervals
