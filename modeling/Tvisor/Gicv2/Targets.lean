/-
# Tvisor.Gicv2.Targets -- the interface that the banked target registers name

The first eight ITARGETSR words are banked: each CPU reads its own interface in them, four byte
fields to a word. `local_target` joins the words, folds the halves of the result onto its low byte
and accepts that byte when it has a single bit.

The comment in the source gives the rule field by field: unimplemented fields may read zero, and
every other field must name the same single interface. `localTarget_exact` says that the fold is
that rule. Words are compared bit by bit: the low byte of the fold has a bit exactly when one of the
32 fields has it (`getLsbD_foldTargets`).
-/
import Mathlib.Data.List.FinRange
import Mathlib.Tactic.SplitIfs
import Tvisor.Gicv2

namespace Tvisor.Gicv2

/-! ## Joins of bit strings -/

section Joins

variable {w : Nat}

/-- `x` has exactly the bits that some member of the list has. -/
def IsJoin (x : BitVec w) (parts : List (BitVec w)) : Prop :=
  ∀ i < w, x.getLsbD i = true ↔ ∃ part ∈ parts, part.getLsbD i = true

/-- A bit string without a bit is zero. -/
theorem eq_zero_of_getLsbD {x : BitVec w} (h : ∀ i < w, x.getLsbD i ≠ true) : x = 0#w := by
  apply BitVec.eq_of_getLsbD_eq
  intro i hi
  simpa using h i hi

/-- A join that is a single bit: every part is that bit or zero, and one part is not zero. -/
theorem IsJoin.eq_twoPow_iff {x : BitVec w} {parts : List (BitVec w)} (h : IsJoin x parts)
    {k : Nat} (hk : k < w) :
    x = BitVec.twoPow w k ↔
      (∃ part ∈ parts, part ≠ 0#w) ∧ ∀ part ∈ parts, part ≠ 0#w → part = BitVec.twoPow w k := by
  constructor
  · rintro rfl
    have honly : ∀ part ∈ parts, ∀ i < w, part.getLsbD i = true → i = k := by
      intro part hpart i hi hbit
      have hjoined := (h i hi).mpr ⟨part, hpart, hbit⟩
      simp only [BitVec.getLsbD_twoPow, Bool.and_eq_true, decide_eq_true_eq] at hjoined
      exact hjoined.2.symm
    obtain ⟨part, hpart, hbit⟩ := (h k hk).mp (by simp [hk])
    refine ⟨⟨part, hpart, ?_⟩, ?_⟩
    · rintro rfl
      simp at hbit
    · -- A part that is not zero has a bit, and the only bit it can have is `k`.
      intro part' hpart' hne
      apply BitVec.eq_of_getLsbD_eq
      intro i hi
      by_cases hik : i = k
      · subst hik
        have hset : part'.getLsbD i = true := by
          by_contra hunset
          refine hne (eq_zero_of_getLsbD fun j hj hbit' => hunset ?_)
          rwa [honly part' hpart' j hj hbit'] at hbit'
        simp [hset, hi]
      · have hclear : part'.getLsbD i = false := by
          by_contra hset
          exact hik (honly part' hpart' i hi (by simpa using hset))
        simp [hclear, BitVec.getLsbD_twoPow, Ne.symm hik]
  · rintro ⟨⟨part, hpart, hne⟩, hall⟩
    apply BitVec.eq_of_getLsbD_eq
    intro i hi
    rw [Bool.eq_iff_iff, h i hi]
    constructor
    · rintro ⟨part', hpart', hbit⟩
      rw [hall part' hpart' (by rintro rfl; simp at hbit)] at hbit
      exact hbit
    · intro hbit
      exact ⟨part, hpart, by rw [hall part hpart hne]; exact hbit⟩

end Joins

/-! ## Targets -/

inductive GicV2Error where
  | invalidTarget (mask : UInt8)
  deriving DecidableEq, Repr

/-- `u8::count_ones` -/
def countOnes (mask : UInt8) : Nat := mask.toBitVec.cpop.toNat

/-- A discovered banked ITARGETSR value: it names one interface. -/
structure CpuTarget where
  mask : UInt8
  single : countOnes mask = 1
  deriving DecidableEq

namespace CpuTarget

def new (mask : UInt8) : Except GicV2Error CpuTarget :=
  if h : countOnes mask = 1 then .ok ⟨mask, h⟩ else .error (.invalidTarget mask)

theorem new_eq_ok {mask : UInt8} {target : CpuTarget} :
    new mask = .ok target ↔ target.mask = mask := by
  unfold new
  constructor
  · intro h
    split_ifs at h
    cases h
    rfl
  · rintro rfl
    rw [dif_pos target.single]

end CpuTarget

/-- What `local_target` does with the words it has read. -/
def foldTargets (words : Vector UInt32 8) : UInt8 :=
  let mask := words.toList.foldl (fun mask word => mask ||| word) 0
  let mask := mask ||| mask >>> 16
  let mask := mask ||| mask >>> 8
  mask.toUInt8

def localTarget (words : Vector UInt32 8) : Except GicV2Error CpuTarget :=
  CpuTarget.new (foldTargets words)

/-- A byte field of a target register. -/
def targetField (word : UInt32) (field : Fin 4) : UInt8 :=
  (word >>> (8 * field.val).toUInt32).toUInt8

def targetFields (words : Vector UInt32 8) : List UInt8 :=
  words.toList.flatMap fun word => (List.finRange 4).map (targetField word)

/-! ## The fold -/

/-- Joining a list of words onto a word. -/
theorem getLsbD_foldl_or (words : List UInt32) (mask : UInt32) (i : Nat) :
    (words.foldl (fun mask word => mask ||| word) mask).toBitVec.getLsbD i = true ↔
      mask.toBitVec.getLsbD i = true ∨ ∃ word ∈ words, word.toBitVec.getLsbD i = true := by
  induction words generalizing mask with
  | nil => simp
  | cons word rest ih =>
    rw [List.foldl_cons, ih]
    simp [or_assoc]

theorem getLsbD_targetField (word : UInt32) (field : Fin 4) {i : Nat} (hi : i < 8) :
    (targetField word field).toBitVec.getLsbD i = word.toBitVec.getLsbD (8 * field.val + i) := by
  have hshift : 8 * field.val % 32 = 8 * field.val := Nat.mod_eq_of_lt (by omega)
  simp [targetField, hi, hshift]

/-- The two shifts bring the four fields of a word together. -/
theorem getLsbD_halves (mask : UInt32) {i : Nat} (hi : i < 8) :
    ((mask ||| mask >>> 16) ||| (mask ||| mask >>> 16) >>> 8).toUInt8.toBitVec.getLsbD i = true ↔
      ∃ field : Fin 4, mask.toBitVec.getLsbD (8 * field.val + i) = true := by
  have hbit : ((mask ||| mask >>> 16) ||| (mask ||| mask >>> 16) >>> 8).toUInt8.toBitVec.getLsbD i =
      ((mask.toBitVec.getLsbD i || mask.toBitVec.getLsbD (16 + i)) ||
        (mask.toBitVec.getLsbD (8 + i) || mask.toBitVec.getLsbD (16 + (8 + i)))) := by
    simp [hi]
  rw [hbit, Bool.or_eq_true, Bool.or_eq_true, Bool.or_eq_true]
  constructor
  · rintro ((h | h) | (h | h))
    · exact ⟨0, by simpa using h⟩
    · exact ⟨2, h⟩
    · exact ⟨1, h⟩
    · exact ⟨3, by rwa [← Nat.add_assoc] at h⟩
  · rintro ⟨field, h⟩
    match field, h with
    | 0, h => exact .inl (.inl (by simpa using h))
    | 1, h => exact .inr (.inl h)
    | 2, h => exact .inl (.inr h)
    | 3, h => exact .inr (.inr (by rwa [← Nat.add_assoc]))

/-- The low byte of the fold has the bits of the fields. -/
theorem getLsbD_foldTargets (words : Vector UInt32 8) :
    IsJoin (foldTargets words).toBitVec ((targetFields words).map UInt8.toBitVec) := by
  intro i hi
  unfold foldTargets
  rw [getLsbD_halves _ hi]
  constructor
  · rintro ⟨field, hbit⟩
    rcases (getLsbD_foldl_or _ _ _).mp hbit with hzero | ⟨word, hword, hset⟩
    · simp at hzero
    · refine ⟨(targetField word field).toBitVec, ?_, ?_⟩
      · refine List.mem_map_of_mem (List.mem_flatMap.mpr ⟨word, hword, ?_⟩)
        exact List.mem_map_of_mem (List.mem_finRange field)
      · rw [getLsbD_targetField word field hi]
        exact hset
  · rintro ⟨part, hpart, hset⟩
    obtain ⟨byte, hbyte, rfl⟩ := List.mem_map.mp hpart
    obtain ⟨word, hword, hmem⟩ := List.mem_flatMap.mp hbyte
    obtain ⟨field, -, rfl⟩ := List.mem_map.mp hmem
    rw [getLsbD_targetField word field hi] at hset
    exact ⟨field, (getLsbD_foldl_or _ _ _).mpr (.inr ⟨word, hword, hset⟩)⟩

/-! ## The rule -/

/-- A byte with a single bit is a power of two. -/
theorem countOnes_eq_one {mask : UInt8} (h : countOnes mask = 1) :
    ∃ k < 8, mask.toBitVec = BitVec.twoPow 8 k := by
  have hall : ∀ x : BitVec 8, x.cpop.toNat = 1 → ∃ k < 8, x = BitVec.twoPow 8 k := by
    decide +kernel
  exact hall mask.toBitVec h

/-- The rule of the comment: some field is not zero, and every field that is not zero is `t`. -/
def AllName (words : Vector UInt32 8) (t : UInt8) : Prop :=
  (∃ field ∈ targetFields words, field ≠ 0) ∧ ∀ field ∈ targetFields words, field ≠ 0 → field = t

theorem foldTargets_eq_iff {words : Vector UInt32 8} {t : UInt8} (h : countOnes t = 1) :
    foldTargets words = t ↔ AllName words t := by
  obtain ⟨k, hk, ht⟩ := countOnes_eq_one h
  have hjoin := (getLsbD_foldTargets words).eq_twoPow_iff hk
  rw [← ht] at hjoin
  have hzero : ∀ field : UInt8, field.toBitVec ≠ 0#8 ↔ field ≠ 0 :=
    fun field => not_congr (UInt8.toBitVec_inj (b := 0))
  rw [← UInt8.toBitVec_inj, hjoin]
  apply and_congr
  · constructor
    · rintro ⟨_, hmem, hne⟩
      obtain ⟨field, hfield, rfl⟩ := List.mem_map.mp hmem
      exact ⟨field, hfield, (hzero field).mp hne⟩
    · rintro ⟨field, hfield, hne⟩
      exact ⟨field.toBitVec, List.mem_map_of_mem hfield, (hzero field).mpr hne⟩
  · rw [List.forall_mem_map]
    refine forall₂_congr fun field _ => ?_
    rw [hzero field, UInt8.toBitVec_inj]

/-- For every content of the eight words: `local_target` returns the target `t` exactly when some
byte field is not zero and every one that is not zero is `t`, a value with a single bit; it returns
an error in every other case. -/
theorem localTarget_exact (words : Vector UInt32 8) :
    (∀ t : UInt8, (∃ target, localTarget words = .ok target ∧ target.mask = t) ↔
      AllName words t ∧ countOnes t = 1) ∧
    ((∃ e, localTarget words = .error e) ↔
      ¬ ∃ t : UInt8, AllName words t ∧ countOnes t = 1) := by
  have hexact : ∀ t : UInt8, (∃ target, localTarget words = .ok target ∧ target.mask = t) ↔
      AllName words t ∧ countOnes t = 1 := by
    intro t
    constructor
    · rintro ⟨target, hok, rfl⟩
      have hfold : target.mask = foldTargets words := CpuTarget.new_eq_ok.mp hok
      exact ⟨(foldTargets_eq_iff target.single).mp hfold.symm, target.single⟩
    · rintro ⟨hname, hsingle⟩
      have hfold : foldTargets words = t := (foldTargets_eq_iff hsingle).mpr hname
      exact ⟨⟨t, hsingle⟩, CpuTarget.new_eq_ok.mpr hfold.symm, rfl⟩
  refine ⟨hexact, ?_, ?_⟩
  · rintro ⟨e, herror⟩ ⟨t, hname⟩
    obtain ⟨target, hok, -⟩ := (hexact t).mpr hname
    rw [herror] at hok
    cases hok
  · intro hnone
    cases hresult : localTarget words with
    | error e => exact ⟨e, rfl⟩
    | ok target =>
      exact absurd ⟨target.mask, (hexact target.mask).mp ⟨target, hresult, rfl⟩⟩ hnone

end Tvisor.Gicv2
