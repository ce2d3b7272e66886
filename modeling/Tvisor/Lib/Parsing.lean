/-
# Tvisor.Lib.Parsing -- exact readings of small texts

Three things that parsers of command lines and of boot arguments do, each with the equivalence that
says when it succeeds and with what: reading a numeral with checked arithmetic, taking a tag off the
front of a text, and looking through all entries for the one that is tagged.
-/
import Mathlib.Data.List.Induction
import Mathlib.Data.Nat.Digits.Defs
import Tvisor.Lib.Fallible
import Tvisor.Lib.Words

namespace Parsing

open Words

variable {ε α β : Type}

/-! ## Numerals -/

/-- The number that the digits denote, most significant first. -/
def numeral (base : Nat) (digits : List Nat) : Nat := Nat.ofDigits base digits.reverse

theorem numeral_concat (base : Nat) (digits : List Nat) (d : Nat) :
    numeral base (digits ++ [d]) = numeral base digits * base + d := by
  rw [numeral, numeral, List.reverse_concat, Nat.ofDigits_cons]
  ring

/-- `address.checked_mul(base).and_then(|address| address.checked_add(digit))` -/
def checkedDigit (base acc d : Nat) : Option Nat := (checkedMul acc base).bind (checkedAdd · d)

theorem checkedDigit_eq_some {base acc d n : Nat} :
    checkedDigit base acc d = some n ↔ acc * base + d < wordBound ∧ n = acc * base + d := by
  rw [checkedDigit, Option.bind_eq_some_iff]
  constructor
  · rintro ⟨product, hmul, hadd⟩
    obtain ⟨-, rfl⟩ := checkedMul_eq_some.mp hmul
    exact checkedAdd_eq_some.mp hadd
  · rintro ⟨hlt, rfl⟩
    exact ⟨acc * base, checkedMul_eq_some.mpr ⟨by omega, rfl⟩, checkedAdd_eq_some.mpr ⟨hlt, rfl⟩⟩

/-- Reading bytes as digits with checked arithmetic: the result is the numeral's number, and there
is one exactly when every byte is a digit and the number is a word. -/
theorem foldlM_checkedDigit {base : Nat} {digit : α → Option Nat} {step : Nat → α → Except ε Nat}
    (hbase : 0 < base)
    (hstep : ∀ acc a n,
      step acc a = .ok n ↔ ∃ d, digit a = some d ∧ checkedDigit base acc d = some n)
    (text : List α) (n : Nat) :
    text.foldlM step 0 = .ok n ↔
      ∃ ds, text.map digit = ds.map some ∧ n = numeral base ds ∧ n < wordBound := by
  -- The last digit is read last, and the number before it is the smaller one.
  induction text using List.reverseRecOn generalizing n with
  | nil =>
    constructor
    · rintro ⟨⟩
      exact ⟨[], rfl, rfl, by decide⟩
    · rintro ⟨ds, hds, rfl, -⟩
      rw [List.map_eq_nil_iff.mp hds.symm]
      rfl
  | append_singleton text a ih =>
    have hlast : (text ++ [a]).foldlM step 0 = text.foldlM step 0 >>= fun acc => step acc a := by
      rw [List.foldlM_append]
      exact bind_congr fun acc => bind_pure _
    rw [hlast, Fallible.bind_eq_ok]
    constructor
    · rintro ⟨acc, hacc, ha⟩
      obtain ⟨ds, hds, rfl, -⟩ := (ih acc).mp hacc
      obtain ⟨d, hd, hn⟩ := (hstep _ _ _).mp ha
      obtain ⟨hlt, rfl⟩ := checkedDigit_eq_some.mp hn
      refine ⟨ds ++ [d], by simp [hds, hd], (numeral_concat base ds d).symm, hlt⟩
    · rintro ⟨ds, hds, rfl, hlt⟩
      obtain ⟨front, d, rfl⟩ : ∃ front d, ds = front ++ [d] := by
        rcases List.eq_nil_or_concat ds with rfl | ⟨front, d, rfl⟩
        · simp at hds
        · exact ⟨front, d, by simp⟩
      rw [List.map_append, List.map_append] at hds
      obtain ⟨hfront, ha⟩ := List.append_inj' hds rfl
      rw [numeral_concat] at hlt ⊢
      have hle : numeral base front ≤ numeral base front * base := Nat.le_mul_of_pos_right _ hbase
      refine ⟨numeral base front, (ih _).mpr ⟨front, hfront, rfl, by omega⟩, ?_⟩
      exact (hstep _ _ _).mpr ⟨d, by simpa using ha, checkedDigit_eq_some.mpr ⟨hlt, rfl⟩⟩

/-! ## Tags -/

/-- `text.strip_prefix(tag)` -/
def stripTag [DecidableEq α] (tag text : List α) : Option (List α) :=
  if tag.isPrefixOf text then some (text.drop tag.length) else none

theorem stripTag_eq_some [DecidableEq α] {tag text rest : List α} :
    stripTag tag text = some rest ↔ text = tag ++ rest := by
  rw [stripTag, Option.ite_none_right_eq_some, List.isPrefixOf_iff_prefix]
  constructor
  · rintro ⟨⟨rest', rfl⟩, hrest⟩
    rw [List.drop_left, Option.some_inj] at hrest
    rw [hrest]
  · rintro rfl
    exact ⟨List.prefix_append tag rest, by rw [List.drop_left]⟩

theorem stripTag_eq_none [DecidableEq α] {tag text : List α} :
    stripTag tag text = none ↔ ¬ tag <+: text := by
  rw [stripTag, ite_eq_right_iff, List.isPrefixOf_iff_prefix]
  exact ⟨fun h hp => Option.some_ne_none _ (h hp), fun h hp => absurd hp h⟩

/-! ## The one tagged entry -/

section Unique

variable (field : Nat → Except ε (Option β)) (duplicate : ε) (parse : β → Except ε α)

/-- One round of the search: an entry without the tag changes nothing, and a second tagged entry is
refused before it is looked at. -/
def searchStep (found : Option α) (index : Nat) : Except ε (Option α) := do
  match ← field index with
  | none => return found
  | some value => if found.isSome then .error duplicate else do return some (← parse value)

/-- The search through the first `count` entries. -/
def search (count : Nat) : Except ε (Option α) :=
  (List.range count).foldlM (searchStep field duplicate parse) none

variable {field duplicate parse}

theorem search_succ (count : Nat) : search field duplicate parse (count + 1) =
    search field duplicate parse count >>= fun found =>
      searchStep field duplicate parse found count := by
  rw [search, List.range_succ, List.foldlM_append]
  exact bind_congr fun found => bind_pure _

theorem searchStep_eq_ok {found result : Option α} {index : Nat} :
    searchStep field duplicate parse found index = .ok result ↔
      (field index = .ok none ∧ result = found) ∨
        ∃ value a, field index = .ok (some value) ∧ found = none ∧ parse value = .ok a ∧
          result = some a := by
  rw [searchStep, Fallible.bind_eq_ok]
  constructor
  · rintro ⟨_ | value, hfield, hrest⟩
    · cases hrest
      exact .inl ⟨hfield, rfl⟩
    · rcases found with _ | a
      · obtain ⟨a, ha, hresult⟩ := Fallible.bind_eq_ok.mp hrest
        cases hresult
        exact .inr ⟨value, a, hfield, rfl, ha, rfl⟩
      · cases hrest
  · rintro (⟨hfield, rfl⟩ | ⟨value, a, hfield, rfl, ha, rfl⟩)
    · exact ⟨none, hfield, rfl⟩
    · refine ⟨some value, hfield, ?_⟩
      show (parse value >>= fun a => pure (some a)) = .ok (some a)
      rw [ha]
      rfl

theorem search_eq_none {count : Nat} : search field duplicate parse count = .ok none ↔
    ∀ i < count, field i = .ok none := by
  induction count with
  | zero => exact ⟨fun _ => nofun, fun _ => rfl⟩
  | succ count ih =>
    rw [search_succ, Fallible.bind_eq_ok]
    constructor
    · rintro ⟨found, hfound, hstep⟩
      rcases searchStep_eq_ok.mp hstep with ⟨hfield, rfl⟩ | ⟨_, _, _, _, _, hne⟩
      · intro i hi
        rcases Nat.lt_succ_iff_lt_or_eq.mp hi with hi | rfl
        · exact ih.mp hfound i hi
        · exact hfield
      · cases hne
    · intro h
      exact ⟨none, ih.mpr fun i hi => h i (by omega),
        searchStep_eq_ok.mpr (.inl ⟨h count (by omega), rfl⟩)⟩

/-- The search ends with a value exactly when one entry is tagged and reads as that value, and every
other entry is in order and not tagged. -/
theorem search_eq_some {count : Nat} {a : α} : search field duplicate parse count = .ok (some a) ↔
    ∃ i < count, ∃ value, field i = .ok (some value) ∧ parse value = .ok a ∧
      ∀ j < count, j ≠ i → field j = .ok none := by
  induction count with
  | zero => exact ⟨nofun, fun ⟨i, hi, _⟩ => absurd hi (by omega)⟩
  | succ count ih =>
    rw [search_succ, Fallible.bind_eq_ok]
    constructor
    · rintro ⟨found, hfound, hstep⟩
      rcases searchStep_eq_ok.mp hstep with ⟨hfield, rfl⟩ | ⟨value, a', hfield, rfl, ha, heq⟩
      · obtain ⟨i, hi, value, hvalue, ha, hothers⟩ := ih.mp hfound
        refine ⟨i, by omega, value, hvalue, ha, fun j hj hne => ?_⟩
        rcases Nat.lt_succ_iff_lt_or_eq.mp hj with hj | rfl
        · exact hothers j hj hne
        · exact hfield
      · cases heq
        refine ⟨count, by omega, value, hfield, ha, fun j hj hne => ?_⟩
        exact search_eq_none.mp hfound j (by omega)
    · rintro ⟨i, hi, value, hvalue, ha, hothers⟩
      rcases Nat.lt_succ_iff_lt_or_eq.mp hi with hi | rfl
      · exact ⟨some a, ih.mpr ⟨i, hi, value, hvalue, ha, fun j hj => hothers j (by omega)⟩,
          searchStep_eq_ok.mpr (.inl ⟨hothers count (by omega) (by omega), rfl⟩)⟩
      · exact ⟨none, search_eq_none.mpr fun j hj => hothers j (by omega) (by omega),
          searchStep_eq_ok.mpr (.inr ⟨value, a, hvalue, rfl, ha, rfl⟩)⟩

end Unique

end Parsing
