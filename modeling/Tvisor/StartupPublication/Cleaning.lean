/-
# Tvisor.StartupPublication.Cleaning -- every line of a published range is cleaned once

Before a secondary runs with its caches off, the boot CPU cleans what the secondary will read: the
five shared sections once, and the stack of each CPU. `clean_range` rounds a range out to lines and
walks from line to line.

A run issues cleans in the order of a list of requests and stops at the first that the hardware
refuses; `Issued` is that relation. Each procedure here comes with the list it works through, so
"once", "every byte" and "in ascending order" are facts about lists: the lines of one range ascend,
and the lines of ranges made of pages are as disjoint as the ranges.
-/
import Mathlib.Data.List.Nodup
import Tvisor.Lib.Effects
import Tvisor.Lib.Traces
import Tvisor.StartupPublication
import Tvisor.StartupResources.Validation

open Tvisor.StartupResources (Resources ShareNoByte wholeRegion wholeStack validateResources
  Accepted validateResources_accepted validateSections_aligned blockTables blockResources)

namespace Tvisor.StartupPublication

open Interleave Fallible Words Pcpu SystemInfo

/-! ## Lines -/

/-- The lines that meet a range, in ascending order. -/
def linesOf (line : Nat) (range : Nat × Nat) : List Nat :=
  List.range' (range.1 / line * line) ((range.2 + (line - 1)) / line - range.1 / line) line

variable {line start finish : Nat}

theorem exists_pow_of_not_badLine (h : ¬ badLine line) :
    ∃ k, line = 2 ^ k ∧ 8 ≤ line ∧ line ≤ 4096 := by
  unfold badLine at h
  rw [not_or, not_not, not_or, not_lt, not_lt] at h
  obtain ⟨hpow, hlo, hhi⟩ := h
  obtain ⟨k, hk⟩ := Nat.ne_zero_and_sub_one_eq_zero_iff_isPowerOfTwo.mp hpow
  exact ⟨k, hk, hlo, hhi⟩

theorem dvd_page (h : ¬ badLine line) : line ∣ 4096 := by
  obtain ⟨k, rfl, -, hhi⟩ := exists_pow_of_not_badLine h
  have hk : k ≤ 12 := (Nat.pow_le_pow_iff_right (a := 2) (by omega)).mp hhi
  exact pow_dvd_pow 2 hk

/-- Clearing the offset in a line rounds a word down to its line. -/
theorem land_line (h : ¬ badLine line) {x : Nat} (hx : x < wordBound) :
    x &&& bitNot (line - 1) = x / line * line := by
  obtain ⟨k, rfl, -, hhi⟩ := exists_pow_of_not_badLine h
  have hk : k ≤ 12 := (Nat.pow_le_pow_iff_right (a := 2) (by omega)).mp hhi
  exact land_bitNot_low hx (by omega)

/-- What `cache_range` accepts, and the rounded bounds it gives. -/
theorem cacheRange_eq_ok {bounds : Nat × Nat} : cacheRange start finish line = .ok bounds ↔
    ¬ badLine line ∧ start < finish ∧ finish + (line - 1) < wordBound ∧
      bounds = (start / line * line, (finish + (line - 1)) / line * line) := by
  unfold cacheRange
  by_cases hbad : badLine line
  · rw [if_pos hbad]
    exact ⟨nofun, fun h => absurd hbad h.1⟩
  rw [if_neg hbad]
  by_cases hle : finish ≤ start
  · rw [if_pos hle]
    exact ⟨nofun, fun h => absurd h.2.1 (not_lt.mpr hle)⟩
  rw [if_neg hle]
  rcases hadd : checkedAdd finish (line - 1) with _ | rounded
  · rw [checkedAdd_eq_none] at hadd
    exact ⟨nofun, fun h => absurd h.2.2.1 (not_lt.mpr hadd)⟩
  · obtain ⟨hlt, rfl⟩ := checkedAdd_eq_some.mp hadd
    show Except.ok (start &&& bitNot (line - 1), finish + (line - 1) &&& bitNot (line - 1)) = _ ↔ _
    rw [land_line hbad (by omega), land_line hbad hlt, Except.ok.injEq]
    constructor
    · rintro rfl
      exact ⟨hbad, not_le.mp hle, hlt, rfl⟩
    · rintro ⟨-, -, -, rfl⟩
      rfl

/-- A multiple of the line size is before the rounded end exactly when it is before the end. -/
theorem lt_roundUp_iff (hline : 0 < line) {j : Nat} :
    j < (finish + (line - 1)) / line ↔ line * j < finish := by
  rw [Nat.lt_iff_add_one_le, Nat.le_div_iff_mul_le hline, Nat.add_mul, Nat.mul_comm j]
  omega

theorem mem_linesOf (hline : 0 < line) (h : start < finish) {a : Nat} :
    a ∈ linesOf line (start, finish) ↔
      line ∣ a ∧ ∃ x, start ≤ x ∧ x < finish ∧ a ≤ x ∧ x < a + line := by
  rw [linesOf, List.mem_range']
  constructor
  · rintro ⟨i, hi, rfl⟩
    have hnumber : start / line * line + line * i = line * (start / line + i) := by ring
    have hbefore : line * (start / line + i) < finish :=
      (lt_roundUp_iff hline).mp (by dsimp only at hi; omega)
    have hafter : start < line * (start / line + i) + line := by
      have hnext := Nat.lt_mul_div_succ start hline
      have hmono := Nat.mul_le_mul_left line (Nat.le_add_right (start / line) i)
      rw [Nat.mul_add, Nat.mul_one] at hnext
      omega
    rw [hnumber]
    refine ⟨⟨_, rfl⟩, max start (line * (start / line + i)), ?_⟩
    omega
  · rintro ⟨⟨j, rfl⟩, x, hlo, hhi, hax, hxa⟩
    have hfirst : start / line ≤ j := by
      rw [← Nat.lt_succ_iff, Nat.div_lt_iff_lt_mul hline, Nat.succ_mul, Nat.mul_comm j]
      omega
    have hlast : j < (finish + (line - 1)) / line := (lt_roundUp_iff hline).mpr (by omega)
    refine ⟨j - start / line, by dsimp only; omega, ?_⟩
    rw [Nat.mul_comm _ line, ← Nat.mul_add, Nat.add_sub_cancel' hfirst]

theorem linesOf_pairwise (hline : 0 < line) (range : Nat × Nat) :
    (linesOf line range).Pairwise (· < ·) :=
  List.pairwise_lt_range' line hline

/-! ## What a run issues -/

/-- A clean that is asked for, with the outcome that the hardware will give it. -/
abbrev Request := Nat × Option Nat

/-- The hardware operation of an access, if it is one. -/
def busOp : Action Val → Option Io
  | .store .bus io => io
  | _ => none

/-- The hardware operations of a run, oldest first. -/
def maintenance (ops : List (Action Val)) : List Io := ops.filterMap busOp

theorem maintenance_append (ops later : List (Action Val)) :
    maintenance (ops ++ later) = maintenance ops ++ maintenance later := List.filterMap_append

/-- The requests are issued in their order, up to the first that fails. -/
inductive Issued : List Request → Except (Halt PublicationError) Unit → List Io → Prop
  | nil : Issued [] (.ok ()) []
  | cons {a v : Nat} {rest : List Request} {r : Except (Halt PublicationError) Unit}
      {ios : List Io} : Issued rest r ios →
      Issued ((a, some v) :: rest) r (⟨.clean a, some v⟩ :: ios)
  | fail {a : Nat} {rest : List Request} :
      Issued ((a, none) :: rest) (.error (.error .io)) [⟨.clean a, none⟩]

section Issued

variable {requests more : List Request} {r : Except (Halt PublicationError) Unit}
  {ios later : List Io}

theorem Issued.append (h : Issued requests (.ok ()) ios) (hmore : Issued more r later) :
    Issued (requests ++ more) r (ios ++ later) := by
  generalize hr : (.ok () : Except (Halt PublicationError) Unit) = done at h
  induction h with
  | nil => exact hmore
  | cons _ ih => exact .cons (ih hr)
  | fail => cases hr

theorem Issued.stop {e : Halt PublicationError} (h : Issued requests (.error e) ios)
    (more : List Request) : Issued (requests ++ more) (.error e) ios := by
  generalize hr : (.error e : Except (Halt PublicationError) Unit) = stopped at h
  induction h with
  | nil => cases hr
  | cons _ ih => exact .cons (ih hr)
  | fail =>
    cases hr
    exact .fail

/-- What is issued is the beginning of what was asked for. -/
theorem Issued.initial (h : Issued requests r ios) :
    ios.map (·.op) <+: requests.map fun q => .clean q.1 := by
  induction h with
  | nil => exact List.prefix_refl _
  | cons _ ih => exact (List.prefix_cons_inj _).mpr ih
  | fail => exact (List.prefix_cons_inj _).mpr List.nil_prefix

/-- If nothing that was issued has failed, everything was issued. -/
theorem Issued.complete (h : Issued requests r ios) (hok : ∀ io ∈ ios, io.outcome ≠ none) :
    r = .ok () ∧ ios.map (·.op) = requests.map fun q => .clean q.1 := by
  induction h with
  | nil => exact ⟨rfl, rfl⟩
  | cons _ ih =>
    obtain ⟨hr, hops⟩ := ih fun io hio => hok io (List.mem_cons_of_mem _ hio)
    exact ⟨hr, congrArg (List.cons _) hops⟩
  | fail => exact absurd rfl (hok _ List.mem_cons_self)

end Issued

variable {ops : List (Action Val)} {r : Except (Halt PublicationError) Unit}

/-- Every run of the program issues these requests. -/
def Issues (requests : List Request) (x : Attempt PublicationError Unit) : Prop :=
  ∀ ops r, x.run.Ran ops r → Issued requests r (maintenance ops)

theorem Issues.pure : Issues [] (pure () : Attempt PublicationError Unit) := by
  intro ops r hrun
  obtain ⟨rfl, rfl⟩ := Prog.ran_ret.mp hrun
  exact .nil

theorem Issues.bind {requests more : List Request} {x y : Attempt PublicationError Unit}
    (hx : Issues requests x) (hy : Issues more y) :
    Issues (requests ++ more) (x >>= fun _ => y) := by
  intro ops r hrun
  rcases hrun.of_run_bind with ⟨before, after, _, hfirst, hsecond, rfl⟩ | ⟨e, hstop, rfl⟩
  · rw [maintenance_append]
    exact (hx _ _ hfirst).append (hy _ _ hsecond)
  · exact (hx _ _ hstop).stop more

theorem Issues.forM {α : Type} {xs : List α} {f : α → Attempt PublicationError Unit}
    {requests : α → List Request} (h : ∀ a ∈ xs, Issues (requests a) (f a)) :
    Issues (xs.flatMap requests) (xs.forM f) := by
  induction xs with
  | nil => exact .pure
  | cons a xs ih =>
    exact (h a List.mem_cons_self).bind (ih fun b hb => h b (List.mem_cons_of_mem a hb))

theorem Issues.clean {a : Nat} {outcome : Option Nat} {requests : List Request}
    {k : Nat → Attempt PublicationError Unit} (h : ∀ v, Issues requests (k v)) :
    Issues ((a, outcome) :: requests) (perform (.clean a) outcome >>= k) := by
  intro ops r hrun
  cases outcome with
  | none =>
    cases hrun with
    | store hrest =>
      obtain ⟨rfl, rfl⟩ := Prog.ran_ret.mp hrest
      exact .fail
  | some v =>
    cases hrun with
    | store hrest => exact .cons (h v _ _ hrest)

/-- The loop takes as many rounds as there are lines, and its additions are exact. -/
theorem cleanLines_issues {line finish rounds address : Nat} (outcome : Nat → Option Nat)
    (hline : 0 < line) (hrounds : address + rounds * line = finish) (hfinish : finish < wordBound) :
    Issues ((List.range' address rounds line).map fun a => (a, outcome a))
      (cleanLines line finish outcome rounds address) := by
  induction rounds generalizing address with
  | zero =>
    rw [cleanLines, if_neg (by omega)]
    exact .pure
  | succ rounds ih =>
    have hrest : address + line + rounds * line = finish := by
      rw [← hrounds, Nat.succ_mul]
      omega
    have hnext : checkedAdd address line = some (address + line) :=
      checkedAdd_eq_some.mpr ⟨by omega, rfl⟩
    rw [List.range'_succ, List.map_cons, cleanLines, if_pos (by omega), hnext]
    exact .clean fun _ => ih hrest

/-! ## Ranges -/

/-- The requests for the lines of a range. -/
def requestsOf (line : Nat) (outcome : Nat → Option Nat) (range : Nat × Nat) : List Request :=
  (linesOf line range).map fun a => (a, outcome a)

theorem cleanRange_issues {bounds : Nat × Nat} (h : cacheRange start finish line = .ok bounds)
    (outcome : Nat → Option Nat) :
    Issues (requestsOf line outcome (start, finish)) (cleanRange start finish line outcome) := by
  obtain ⟨hbad, hlt, hword, rfl⟩ := cacheRange_eq_ok.mp h
  obtain ⟨-, -, hpos, -⟩ := exists_pow_of_not_badLine hbad
  have hrounds : ((finish + (line - 1)) / line * line - start / line * line) / line =
      (finish + (line - 1)) / line - start / line := by
    rw [← Nat.sub_mul, Nat.mul_div_cancel _ (by omega)]
  have hle : start / line ≤ (finish + (line - 1)) / line := Nat.div_le_div_right (by omega)
  have hlast := Nat.div_mul_le_self (finish + (line - 1)) line
  rw [cleanRange, h]
  show Issues _ (cleanLines line _ outcome (_ / line) _)
  rw [hrounds]
  refine cleanLines_issues outcome (by omega) ?_ (by omega)
  rw [← Nat.add_mul, Nat.add_sub_cancel' hle]

/-! ## Ranges made of pages -/

/-- A range that starts and ends at a page. -/
structure PageRange (range : Nat × Nat) : Prop where
  start : range.1 % 4096 = 0
  finish : range.2 % 4096 = 0
  lt : range.1 < range.2
  word : range.2 < wordBound

section Pages

variable {range other : Nat × Nat}

theorem PageRange.cacheRange_ok (h : PageRange range) (hline : ¬ badLine line) :
    ∃ bounds, cacheRange range.1 range.2 line = .ok bounds := by
  obtain ⟨-, -, -, hmax⟩ := exists_pow_of_not_badLine hline
  have hfinish := h.finish
  have hword := h.word
  have hbound : wordBound = 2 ^ 64 := rfl
  exact ⟨_, cacheRange_eq_ok.mpr ⟨hline, h.lt, by omega, rfl⟩⟩

/-- The lines of such a range are those that start in it. -/
theorem PageRange.mem_linesOf (h : PageRange range) (hline : ¬ badLine line) {a : Nat} :
    a ∈ linesOf line range ↔ line ∣ a ∧ range.1 ≤ a ∧ a < range.2 := by
  obtain ⟨-, -, hmin, -⟩ := exists_pow_of_not_badLine hline
  have hstart : line ∣ range.1 := (dvd_page hline).trans (Nat.dvd_of_mod_eq_zero h.start)
  refine (StartupPublication.mem_linesOf (by omega) h.lt).trans ⟨?_, ?_⟩
  · rintro ⟨ha, x, hlo, hhi, hax, hxa⟩
    refine ⟨ha, ?_, by omega⟩
    -- Two multiples of the line size that are less than a line apart are in order.
    obtain ⟨p, hp⟩ := hstart
    obtain ⟨q, rfl⟩ := ha
    rw [hp] at hlo ⊢
    have hpq : p < q + 1 := by
      apply Nat.lt_of_mul_lt_mul_left (a := line)
      rw [Nat.mul_add, Nat.mul_one]
      omega
    exact Nat.mul_le_mul_left line (Nat.lt_succ_iff.mp hpq)
  · rintro ⟨ha, hlo, hhi⟩
    exact ⟨ha, a, hlo, hhi, le_rfl, by omega⟩

theorem PageRange.linesOf_disjoint (h : PageRange range) (h' : PageRange other)
    (hline : ¬ badLine line) (hapart : ShareNoByte range other) :
    (linesOf line range).Disjoint (linesOf line other) := by
  intro a ha ha'
  obtain ⟨-, hlo, hhi⟩ := (h.mem_linesOf hline).mp ha
  obtain ⟨-, hlo', hhi'⟩ := (h'.mem_linesOf hline).mp ha'
  exact hapart a ⟨hlo, hhi, hlo', hhi'⟩

theorem PageRange.exists_line (h : PageRange range) (hline : ¬ badLine line) {x : Nat}
    (hlo : range.1 ≤ x) (hhi : x < range.2) :
    ∃ a ∈ linesOf line range, a ≤ x ∧ x < a + line := by
  obtain ⟨-, -, hmin, -⟩ := exists_pow_of_not_badLine hline
  have hle := Nat.div_mul_le_self x line
  have hlt := Nat.lt_div_mul_add (a := x) (show 0 < line by omega)
  exact ⟨x / line * line, (StartupPublication.mem_linesOf (by omega) h.lt).mpr
    ⟨⟨x / line, Nat.mul_comm _ _⟩, x, hlo, hhi, hle, hlt⟩, hle, hlt⟩

end Pages

/-! ## All startups -/

variable {region : PhysRegion}

/-- The cleans of `publish_all_startups`: the shared sections, then each stack. -/
def publishStartups (shared : Resources) (rs : List Resources) (line : Nat)
    (sharedOutcome stackOutcome : Nat → Nat → Option Nat) : Attempt PublicationError Unit := do
  publishSharedStartup shared line sharedOutcome
  rs.zipIdx.forM fun (r, index) => publishCpuStartup r.stack line (stackOutcome index)

/-- The bytes that are pushed on a stack. -/
def stackRange (r : Resources) : Nat × Nat := (r.stack.bottom, r.stack.top)

/-- What has to reach memory. -/
def publishedRanges (shared : Resources) (rs : List Resources) : List (Nat × Nat) :=
  (sharedRegions shared).map wholeRegion ++ rs.map stackRange

section Startups

variable {n : Nat} {t : El2Stage1.TableSet n} {shared r : Resources} {rs : List Resources}

theorem sharedRegions_sublist (r : Resources) : sharedRegions r ⊆ r.sections := by
  intro region hregion
  simp only [sharedRegions, Resources.sections, List.mem_cons,
    List.not_mem_nil, or_false] at hregion ⊢
  tauto

theorem pageRange_region (h : Accepted t r) (hregion : region ∈ sharedRegions r) :
    PageRange (wholeRegion region) := by
  obtain ⟨hstart, hfinish⟩ :=
    validateSections_aligned h.sections region (sharedRegions_sublist r hregion)
  exact ⟨hstart, hfinish, region.start_lt_endAddr, region.endAddr_lt⟩

theorem pageRange_stack (h : Accepted t r) : PageRange (stackRange r) := by
  obtain ⟨haligned, hword, hstack⟩ := stackLayout_eq_ok h.stack
  have hbottom := congrArg StackLayout.bottom hstack
  have htop := congrArg StackLayout.top hstack
  dsimp only at hbottom htop
  constructor
  · show r.stack.bottom % 4096 = 0
    omega
  · show r.stack.top % 4096 = 0
    omega
  · show r.stack.bottom < r.stack.top
    omega
  · show r.stack.top < wordBound
    omega

theorem shareNoByte_stack (h : Accepted t r) (hregion : region ∈ sharedRegions r) :
    ShareNoByte (wholeRegion region) (stackRange r) := by
  obtain ⟨-, -, hcross⟩ := List.pairwise_append.mp h.pairwise
  have hapart := hcross (wholeRegion region)
    (List.mem_map_of_mem (sharedRegions_sublist r hregion)) _ (List.mem_singleton_self _)
  have hbottom := congrArg StackLayout.bottom (stackLayout_eq_ok h.stack).2.2
  dsimp only at hbottom
  rintro x ⟨hlo, hhi, hlo', hhi'⟩
  refine hapart x ⟨hlo, hhi, ?_, hhi'⟩
  show r.stack.guardStart ≤ x
  have : r.stack.bottom ≤ x := hlo'
  omega

theorem publishedRanges_pages (hshared : shared ∈ rs) (haccepted : ∀ r ∈ rs, Accepted t r) :
    ∀ range ∈ publishedRanges shared rs, PageRange range := by
  intro range hrange
  rcases List.mem_append.mp hrange with hrange | hrange
  · obtain ⟨region, hregion, rfl⟩ := List.mem_map.mp hrange
    exact pageRange_region (haccepted shared hshared) hregion
  · obtain ⟨r, hr, rfl⟩ := List.mem_map.mp hrange
    exact pageRange_stack (haccepted r hr)

theorem publishedRanges_pairwise (hshared : shared ∈ rs) (haccepted : ∀ r ∈ rs, Accepted t r)
    (hsame : ∀ r ∈ rs, sharedRegions r = sharedRegions shared)
    (hstacks : rs.Pairwise fun a b => ShareNoByte (stackRange a) (stackRange b)) :
    (publishedRanges shared rs).Pairwise ShareNoByte := by
  refine List.pairwise_append.mpr ⟨?_, List.pairwise_map.mpr hstacks, ?_⟩
  · obtain ⟨hsections, -, -⟩ := List.pairwise_append.mp (haccepted shared hshared).pairwise
    -- The release page is the last of the sections.
    have hsplit : shared.sections.map wholeRegion =
        (sharedRegions shared).map wholeRegion ++
          [wholeRegion shared.releasePage] := rfl
    rw [hsplit] at hsections
    exact (List.pairwise_append.mp hsections).1
  · intro range hrange other hother
    obtain ⟨region, hregion, rfl⟩ := List.mem_map.mp hrange
    obtain ⟨r, hr, rfl⟩ := List.mem_map.mp hother
    exact shareNoByte_stack (haccepted r hr) (by rwa [hsame r hr])

/-- No line is asked for twice. -/
theorem nodup_lines (hpages : ∀ range ∈ publishedRanges shared rs, PageRange range)
    (hpairwise : (publishedRanges shared rs).Pairwise ShareNoByte) (hline : ¬ badLine line) :
    ((publishedRanges shared rs).flatMap (linesOf line)).Nodup := by
  obtain ⟨-, -, hmin, -⟩ := exists_pow_of_not_badLine hline
  refine List.nodup_flatMap.mpr ⟨fun range _ => ?_, ?_⟩
  · exact (linesOf_pairwise (by omega) range).imp fun hlt => Nat.ne_of_lt hlt
  · exact hpairwise.imp_of_mem fun hrange hother hapart =>
      (hpages _ hrange).linesOf_disjoint (hpages _ hother) hline hapart

/-- The requests for a list of ranges, each with the outcomes for its place in the list. -/
def requestsOfAll {α : Type} (line : Nat) (outcome : Nat → Nat → Option Nat)
    (range : α → Nat × Nat) (xs : List α) : List Request :=
  xs.zipIdx.flatMap fun p => requestsOf line (outcome p.2) (range p.1)

theorem map_fst_requestsOfAll {α : Type} (line : Nat) (outcome : Nat → Nat → Option Nat)
    (range : α → Nat × Nat) (xs : List α) :
    (requestsOfAll line outcome range xs).map Prod.fst =
      (xs.map range).flatMap (linesOf line) := by
  have hone : ∀ p : α × Nat, (requestsOf line (outcome p.2) (range p.1)).map Prod.fst =
      linesOf line (range p.1) := by
    intro p
    rw [requestsOf, List.map_map]
    exact List.map_id _
  have hindex : xs.zipIdx.flatMap (fun p => linesOf line (range p.1)) =
      (xs.zipIdx.map Prod.fst).flatMap fun a => linesOf line (range a) := by
    rw [List.flatMap_map]
  rw [requestsOfAll, List.map_flatMap]
  simp only [hone]
  rw [hindex, List.zipIdx_map_fst, List.flatMap_map]

theorem publishSharedStartup_issues (h : Accepted t shared) (hline : ¬ badLine line)
    (outcome : Nat → Nat → Option Nat) :
    Issues (requestsOfAll line outcome wholeRegion (sharedRegions shared))
      (publishSharedStartup shared line outcome) := by
  have hlayout := h.layout
  unfold Resources.BadLayout at hlayout
  simp only [not_or, Bool.not_eq_false] at hlayout
  obtain ⟨-, -, -, hslots, -, -, -, -, -, -, hconfig, -⟩ := hlayout
  have hchecked : (sharedRegions shared).forM (checkRange line) = .ok () := by
    refine forM_eq_ok.mpr fun region hregion => ?_
    obtain ⟨bounds, hbounds⟩ := (pageRange_region h hregion).cacheRange_ok hline
    exact bind_eq_ok.mpr ⟨bounds, hbounds, rfl⟩
  have hcontains : ¬ (shared.writable.containsRegion shared.slots = false ∨
      shared.writable.containsRegion shared.config = false) := by
    rw [not_or, Bool.not_eq_false, Bool.not_eq_false]
    exact ⟨hslots, hconfig⟩
  unfold publishSharedStartup
  split
  · rename_i hbad
    exact absurd hbad hcontains
  · rw [hchecked]
    refine Issues.forM fun p hp => ?_
    have hpages := pageRange_region h (List.fst_mem_of_mem_zipIdx hp)
    obtain ⟨bounds, hbounds⟩ := hpages.cacheRange_ok hline
    exact cleanRange_issues hbounds _

theorem publishCpuStartup_issues (h : Accepted t r) (hline : ¬ badLine line)
    (outcome : Nat → Option Nat) :
    Issues (requestsOf line outcome (stackRange r)) (publishCpuStartup r.stack line outcome) := by
  obtain ⟨bounds, hbounds⟩ := (pageRange_stack h).cacheRange_ok hline
  have hlayout : (stackLayout r.stack.guardStart).toOption = some r.stack := by
    rw [h.stack]
    rfl
  rw [publishCpuStartup, if_neg (not_not.mpr hlayout)]
  exact cleanRange_issues hbounds outcome

theorem publishStartups_issues (hshared : shared ∈ rs) (haccepted : ∀ r ∈ rs, Accepted t r)
    (hline : ¬ badLine line) (sharedOutcome stackOutcome : Nat → Nat → Option Nat) :
    Issues (requestsOfAll line sharedOutcome wholeRegion (sharedRegions shared) ++
        requestsOfAll line stackOutcome stackRange rs)
      (publishStartups shared rs line sharedOutcome stackOutcome) := by
  refine (publishSharedStartup_issues (haccepted shared hshared) hline sharedOutcome).bind ?_
  refine Issues.forM fun p hp => ?_
  exact publishCpuStartup_issues (haccepted _ (List.fst_mem_of_mem_zipIdx hp)) hline _

end Startups

/-! ## The result -/

/-- A run that has cleaned the lines of a range in ascending order, as far as the hardware let it:
exactly the aligned addresses whose line meets the range. -/
def CleansLines (start finish line : Nat) (outcome : Nat → Option Nat)
    (r : Except (Halt PublicationError) Unit) (ios : List Io) : Prop :=
  ∃ lines : List Nat, lines.Pairwise (· < ·) ∧
    (∀ a, a ∈ lines ↔ line ∣ a ∧ ∃ x, start ≤ x ∧ x < finish ∧ a ≤ x ∧ x < a + line) ∧
    (∀ a ∈ lines, a + line < wordBound) ∧ Issued (lines.map fun a => (a, outcome a)) r ios

/-- A run that has cleaned no line twice, and every byte of the ranges if the hardware did not
fail. -/
structure CleansOnce (line : Nat) (ranges : List (Nat × Nat))
    (r : Except (Halt PublicationError) Unit) (ios : List Io) : Prop where
  aligned : ∀ io ∈ ios, ∃ a, io.op = .clean a ∧ line ∣ a
  once : (ios.map (·.op)).Nodup
  complete : (∀ io ∈ ios, io.outcome ≠ none) → r = .ok () ∧
    ∀ range ∈ ranges, ∀ x, range.1 ≤ x → x < range.2 →
      ∃ a, .clean a ∈ ios.map (·.op) ∧ a ≤ x ∧ x < a + line

theorem cleanRange_run {outcome : Nat → Option Nat}
    (hrun : (cleanRange start finish line outcome).run.Ran ops r) :
    (maintenance ops = [] ∧ ∃ e, r = .error (.error e)) ∨
      CleansLines start finish line outcome r (maintenance ops) := by
  rcases h : cacheRange start finish line with e | bounds
  · rw [cleanRange, h] at hrun
    obtain ⟨rfl, rfl⟩ := Prog.ran_ret.mp hrun
    exact .inl ⟨rfl, e, rfl⟩
  · obtain ⟨hbad, hlt, hword, -⟩ := cacheRange_eq_ok.mp h
    obtain ⟨-, -, hmin, -⟩ := exists_pow_of_not_badLine hbad
    refine .inr ⟨linesOf line (start, finish), linesOf_pairwise (by omega) _,
      fun a => mem_linesOf (by omega) hlt, fun a ha => ?_,
      cleanRange_issues h outcome _ _ hrun⟩
    obtain ⟨⟨j, rfl⟩, x, -, hx, hax, -⟩ := (mem_linesOf (by omega) hlt).mp ha
    omega

theorem cleansOnce {n : Nat} {t : El2Stage1.TableSet n} {shared : Resources} {rs : List Resources}
    (hshared : shared ∈ rs) (haccepted : ∀ r ∈ rs, Accepted t r)
    (hsame : ∀ r ∈ rs, sharedRegions r = sharedRegions shared)
    (hstacks : rs.Pairwise fun a b => ShareNoByte (stackRange a) (stackRange b))
    (hline : ¬ badLine line) {sharedOutcome stackOutcome : Nat → Nat → Option Nat}
    (hrun : (publishStartups shared rs line sharedOutcome stackOutcome).run.Ran ops r) :
    CleansOnce line (publishedRanges shared rs) r (maintenance ops) := by
  have hissued := publishStartups_issues hshared haccepted hline _ _ _ _ hrun
  have hpages := publishedRanges_pages hshared haccepted
  have hnodup := nodup_lines hpages
    (publishedRanges_pairwise hshared haccepted hsame hstacks) hline
  generalize hrequests : requestsOfAll line sharedOutcome wholeRegion
      (sharedRegions shared) ++ requestsOfAll line stackOutcome stackRange rs =
    requests at hissued
  have hlines : requests.map Prod.fst = (publishedRanges shared rs).flatMap (linesOf line) := by
    rw [← hrequests, List.map_append, map_fst_requestsOfAll, map_fst_requestsOfAll,
      publishedRanges, List.flatMap_append]
  have hops : requests.map (fun q => HardwareOp.clean q.1) =
      ((publishedRanges shared rs).flatMap (linesOf line)).map .clean := by
    rw [← hlines, List.map_map]
    rfl
  have hinitial := hissued.initial
  rw [hops] at hinitial
  constructor
  case aligned =>
    intro io hio
    obtain ⟨a, ha, hop⟩ := List.mem_map.mp (hinitial.subset (List.mem_map_of_mem hio))
    obtain ⟨range, hrange, ha⟩ := List.mem_flatMap.mp ha
    exact ⟨a, hop.symm, (((hpages range hrange).mem_linesOf hline).mp ha).1⟩
  case once =>
    refine hinitial.sublist.nodup (hnodup.map fun a b hab => ?_)
    cases hab
    rfl
  case complete =>
    intro hok
    obtain ⟨hr, hall⟩ := hissued.complete hok
    refine ⟨hr, fun range hrange x hlo hhi => ?_⟩
    obtain ⟨a, ha, hle, hlt⟩ := (hpages range hrange).exists_line hline hlo hhi
    refine ⟨a, ?_, hle, hlt⟩
    rw [hall, hops]
    exact List.mem_map_of_mem (List.mem_flatMap.mpr ⟨range, hrange, ha⟩)

/-- One bad range of the five, and nothing is issued. -/
theorem publishSharedStartup_silent {resources : Resources} {e : PublicationError}
    (hregion : region ∈ sharedRegions resources)
    (hbad : cacheRange region.start region.endAddr line = .error e)
    {outcome : Nat → Nat → Option Nat}
    (hrun : (publishSharedStartup resources line outcome).run.Ran ops r) :
    maintenance ops = [] := by
  unfold publishSharedStartup at hrun
  split at hrun
  · obtain ⟨rfl, -⟩ := Prog.ran_ret.mp hrun
    rfl
  · rcases hchecked : (sharedRegions resources).forM (checkRange line) with e' | ⟨⟩
    · rw [hchecked] at hrun
      obtain ⟨rfl, -⟩ := Prog.ran_ret.mp hrun
      rfl
    · obtain ⟨bounds, hbounds, -⟩ := bind_eq_ok.mp (forM_eq_ok.mp hchecked region hregion)
      rw [hbad] at hbounds
      cases hbounds

/-- **Cache publication cleans each line exactly once.** A range is refused before any maintenance,
or its lines are cleaned in ascending order without an address overflow; accepted resources that
share their sections and whose stacks are disjoint are published without cleaning a line twice, and
completely if the hardware does not fail; and an invalid shared range stops `publish_shared_startup`
before its first clean. -/
theorem publication_cleans_each_line_once :
    (∀ start finish line outcome ops r,
      (cleanRange start finish line outcome).run.Ran ops r →
        (maintenance ops = [] ∧ ∃ e, r = .error (.error e)) ∨
          CleansLines start finish line outcome r (maintenance ops)) ∧
    (∀ (n : Nat) (t : El2Stage1.TableSet n) (shared : Resources) (rs : List Resources),
      shared ∈ rs → (∀ r ∈ rs, validateResources t r = .ok ()) →
      (∀ r ∈ rs, sharedRegions r = sharedRegions shared) →
      rs.Pairwise (fun a b => ShareNoByte (stackRange a) (stackRange b)) →
      ∀ line, ¬ badLine line → ∀ sharedOutcome stackOutcome ops r,
        (publishStartups shared rs line sharedOutcome stackOutcome).run.Ran ops r →
          CleansOnce line (publishedRanges shared rs) r (maintenance ops)) ∧
    ∀ (resources : Resources) (line : Nat) (outcome : Nat → Nat → Option Nat)
      (ops : List (Action Val)) (r : Except (Halt PublicationError) Unit),
      (∃ region ∈ sharedRegions resources, ∃ e,
        cacheRange region.start region.endAddr line = .error e) →
      (publishSharedStartup resources line outcome).run.Ran ops r → maintenance ops = [] := by
  refine ⟨fun _ _ _ _ _ _ hrun => cleanRange_run hrun, ?_, ?_⟩
  · intro n t shared rs hshared hvalid hsame hstacks line hline _ _ ops r hrun
    exact cleansOnce hshared (fun r hr => validateResources_accepted (hvalid r hr)) hsame hstacks
      hline hrun
  · rintro resources line outcome ops r ⟨region, hregion, e, hbad⟩ hrun
    exact publishSharedStartup_silent hregion hbad hrun

/-- A memory of zeros, and a bus that says nothing. -/
def allZero : ∀ c, Val c
  | .bus => none
  | .boot | .attempted | .frozen | .fatal | .config _ | .slot _ _ | .failures _ => 0

/-- The resources of one CPU, published with lines of 64 bytes by hardware that does not fail. -/
theorem publication_cleans_each_line_once_block :
    validateResources blockTables blockResources = .ok () ∧ ¬ badLine 64 ∧
      ∃ ops r,
        CleansOnce 64 (publishedRanges blockResources [blockResources]) r (maintenance ops) := by
  have hvalid : validateResources blockTables blockResources = .ok () := by decide +kernel
  have hline : ¬ badLine 64 := by decide
  obtain ⟨ops, r, hrun, -⟩ := Prog.exists_ran
    (publishStartups blockResources [blockResources] 64 (fun _ _ => some 0) fun _ _ => some 0).run
    fun _ => allZero
  exact ⟨hvalid, hline, ops, r, publication_cleans_each_line_once.2.1 2 blockTables blockResources
    [blockResources] (List.mem_singleton_self _) (List.forall_mem_singleton.mpr hvalid)
    (List.forall_mem_singleton.mpr rfl) (List.pairwise_singleton _ _) 64 hline _ _ ops r hrun⟩

end Tvisor.StartupPublication
