/-
# Tvisor.Lib.Radix -- trees of tables linked through memory words

A table is an array of words, indexed by a type `I`, that is found through a handle of type `H`. A
word decodes to nothing, to the handle of a table one level down, to a leaf, or it is ill formed;
the decoding may depend on the depth. Handles, indices, words and leaves are arbitrary: handles may
be positions in an arena or physical addresses.

Nothing in such a memory says that the tables form a tree. The invariant that does is `Tree`: no
table is reached along two paths and no word of a reachable table is ill formed. Under it a
write to one word has a local effect, and the file states it for the two writes there are: putting a
leaf or nothing in the place of a leaf or nothing, and linking a fresh, empty table.
-/
import Mathlib.Data.List.Induction
import Mathlib.Data.List.Infix
import Mathlib.Logic.Basic

namespace Radix

variable {H I W L : Type*}

/-- The meaning of one table word. -/
inductive Entry (H L : Type*) where
  | empty
  | table (child : H)
  | leaf (value : L)
  | bad

section Reading

variable (decode : Nat → W → Entry H L)

/-- The table reached from table `h` at depth `d` along a path of indices. -/
def follow (mem : H → I → W) : Nat → H → List I → Option H
  | _, h, [] => some h
  | d, h, i :: rest =>
      match decode d (mem h i) with
      | .table c => follow mem (d + 1) c rest
      | _ => none

/-- The first leaf met along a path, with its depth. -/
def lookup (mem : H → I → W) : Nat → H → List I → Option (Nat × L)
  | _, _, [] => none
  | d, h, i :: rest =>
      match decode d (mem h i) with
      | .table c => lookup mem (d + 1) c rest
      | .leaf v => some (d, v)
      | _ => none

/-- The tables reachable from the root form a tree of well-formed words. -/
structure Tree (mem : H → I → W) (root : H) : Prop where
  inj : ∀ {p q h}, follow decode mem 0 root p = some h → follow decode mem 0 root q = some h → p = q
  good : ∀ {p h} i, follow decode mem 0 root p = some h → decode p.length (mem h i) ≠ .bad

end Reading

variable {decode : Nat → W → Entry H L} {mem mem' : H → I → W} {root t c : H} {p q : List I} {i : I}
  {w : W}

/-! ## Paths -/

theorem follow_append (d : Nat) (h : H) (p q : List I) :
    follow decode mem d h (p ++ q) =
      (follow decode mem d h p).bind fun c => follow decode mem (d + p.length) c q := by
  induction p generalizing d h with
  | nil => rfl
  | cons i rest ih =>
    simp only [List.cons_append, follow]
    cases decode d (mem h i) with
    | table c =>
      show follow decode mem (d + 1) c (rest ++ q) = _
      rw [ih, List.length_cons, Nat.add_right_comm, Nat.add_assoc]
    | _ => rfl

/-- One more index leads to a table exactly when the word there links one. -/
theorem follow_concat_eq_some :
    follow decode mem 0 root (p ++ [i]) = some c ↔
      ∃ h, follow decode mem 0 root p = some h ∧ decode p.length (mem h i) = .table c := by
  rw [follow_append, Nat.zero_add]
  cases follow decode mem 0 root p with
  | none => simp
  | some h =>
    simp only [Option.bind_some, follow, Option.some.injEq]
    constructor
    · intro hc
      refine ⟨h, rfl, ?_⟩
      cases hd : decode p.length (mem h i) with
      | table c' =>
        rw [hd] at hc
        exact congrArg Entry.table (Option.some.inj hc)
      | _ =>
        rw [hd] at hc
        cases hc
    · rintro ⟨h', rfl, hd⟩
      rw [hd]

theorem lookup_append {d : Nat} {h c : H} {p : List I} (hp : follow decode mem d h p = some c)
    (q : List I) :
    lookup decode mem d h (p ++ q) = lookup decode mem (d + p.length) c q := by
  induction p generalizing d h with
  | nil =>
    cases hp
    rfl
  | cons i rest ih =>
    simp only [List.cons_append, follow, lookup] at hp ⊢
    cases hd : decode d (mem h i) with
    | table c' =>
      rw [hd] at hp
      rw [List.length_cons, ← Nat.add_assoc, Nat.add_right_comm]
      exact ih hp
    | _ =>
      rw [hd] at hp
      cases hp

/-- A leaf is found exactly when some prefix of the path leads to the table that holds it. -/
theorem lookup_eq_some {d : Nat} {v : L} {q : List I} :
    lookup decode mem 0 root q = some (d, v) ↔
      ∃ p i rest h, q = p ++ i :: rest ∧ p.length = d ∧ follow decode mem 0 root p = some h ∧
        decode d (mem h i) = .leaf v := by
  -- Generalised to a start at any depth, by induction on the path.
  have general : ∀ (q : List I) (d₀ : Nat) (h₀ : H), lookup decode mem d₀ h₀ q = some (d, v) ↔
      ∃ p i rest h, q = p ++ i :: rest ∧ d₀ + p.length = d ∧
        follow decode mem d₀ h₀ p = some h ∧ decode d (mem h i) = .leaf v := by
    intro q
    induction q with
    | nil =>
      intro d₀ h₀
      constructor
      · intro h
        cases h
      · rintro ⟨p, i, rest, h, hq, -⟩
        cases p <;> cases hq
    | cons j tail ih =>
      intro d₀ h₀
      constructor
      · intro hl
        simp only [lookup] at hl
        cases hd : decode d₀ (mem h₀ j) with
        | table c =>
          rw [hd] at hl
          obtain ⟨p, i, rest, h, hq, hlen, hf, hleaf⟩ := (ih (d₀ + 1) c).mp hl
          refine ⟨j :: p, i, rest, h, by rw [hq]; rfl, ?_, ?_, hleaf⟩
          · rw [List.length_cons]
            omega
          · simp only [follow, hd]
            exact hf
        | leaf v' =>
          rw [hd] at hl
          cases hl
          exact ⟨[], j, tail, h₀, rfl, rfl, rfl, hd⟩
        | empty => rw [hd] at hl; cases hl
        | bad => rw [hd] at hl; cases hl
      · rintro ⟨p, i, rest, h, hq, hlen, hf, hleaf⟩
        cases p with
        | nil =>
          cases hq
          cases hf
          cases hlen
          simp only [lookup, Nat.add_zero, List.length_nil] at hleaf ⊢
          rw [hleaf]
        | cons j' p' =>
          cases hq
          simp only [follow, lookup] at hf ⊢
          cases hd : decode d₀ (mem h₀ j) with
          | table c =>
            rw [hd] at hf
            rw [List.length_cons] at hlen
            exact (ih (d₀ + 1) c).mpr ⟨p', i, rest, h, rfl, by omega, hf, hleaf⟩
          | _ =>
            rw [hd] at hf
            cases hf
  have h := general q 0 root
  simp only [Nat.zero_add] at h
  exact h

/-! ## Frames -/

/-- Words outside the reachable tables do not matter. -/
theorem follow_congr
    (hsame : ∀ p h, follow decode mem 0 root p = some h → ∀ i, mem' h i = mem h i) (q : List I) :
    follow decode mem' 0 root q = follow decode mem 0 root q := by
  induction q using List.reverseRecOn with
  | nil => rfl
  | append_singleton q j ih =>
    rw [follow_append, follow_append, ih]
    cases hq : follow decode mem 0 root q with
    | none => rfl
    | some h =>
      simp only [Option.bind_some, follow]
      rw [hsame q h hq]

/-- Two memories with the same reachable tables and the same leaves in them look the same. -/
theorem lookup_congr
    (hfollow : ∀ p h, follow decode mem' 0 root p = some h ↔ follow decode mem 0 root p = some h)
    (hsame : ∀ p h, follow decode mem 0 root p = some h → ∀ i, (∃ rest, q = p ++ i :: rest) →
      ∀ v, decode p.length (mem' h i) = .leaf v ↔ decode p.length (mem h i) = .leaf v) :
    lookup decode mem' 0 root q = lookup decode mem 0 root q := by
  apply Option.ext
  rintro ⟨d, v⟩
  rw [lookup_eq_some, lookup_eq_some]
  constructor
  · rintro ⟨p, i, rest, h, hq, rfl, hf, hleaf⟩
    have hf' := (hfollow p h).mp hf
    exact ⟨p, i, rest, h, hq, rfl, hf', (hsame p h hf' i ⟨rest, hq⟩ v).mp hleaf⟩
  · rintro ⟨p, i, rest, h, hq, rfl, hf, hleaf⟩
    exact ⟨p, i, rest, h, hq, rfl, (hfollow p h).mpr hf, (hsame p h hf i ⟨rest, hq⟩ v).mpr hleaf⟩

theorem lookup_frame
    (hsame : ∀ p h, follow decode mem 0 root p = some h → ∀ i, mem' h i = mem h i) (q : List I) :
    lookup decode mem' 0 root q = lookup decode mem 0 root q := by
  apply lookup_congr
  · intro p h
    rw [follow_congr hsame]
  · intro p h hf i _ v
    rw [hsame p h hf]

theorem Tree.frame (htree : Tree decode mem root)
    (hsame : ∀ p h, follow decode mem 0 root p = some h → ∀ i, mem' h i = mem h i) :
    Tree decode mem' root where
  inj := by
    intro p q h hp hq
    rw [follow_congr hsame] at hp hq
    exact htree.inj hp hq
  good := by
    intro p h i hp
    rw [follow_congr hsame] at hp
    rw [hsame p h hp]
    exact htree.good i hp

/-- A tree of one table without entries. -/
theorem Tree.single (hempty : ∀ i, decode 0 (mem root i) = .empty) : Tree decode mem root := by
  have hpath : ∀ {p : List I} {h}, follow decode mem 0 root p = some h → p = [] ∧ h = root := by
    intro p h hp
    cases p with
    | nil => exact ⟨rfl, (Option.some.inj hp).symm⟩
    | cons i rest =>
      simp only [follow, hempty] at hp
      cases hp
  constructor
  · intro p q h hp hq
    rw [(hpath hp).1, (hpath hq).1]
  · intro p h i hp
    obtain ⟨rfl, rfl⟩ := hpath hp
    rw [List.length_nil, hempty]
    intro h
    cases h

/-! ## Writing one word -/

section Writing

variable [DecidableEq H] [DecidableEq I]

/-- The memory after one store. -/
def set (mem : H → I → W) (t : H) (i : I) (w : W) : H → I → W :=
  fun h j => if h = t ∧ j = i then w else mem h j

@[simp] theorem set_same : set mem t i w t i = w := if_pos ⟨rfl, rfl⟩

theorem set_other {h : H} {j : I} (hne : ¬ (h = t ∧ j = i)) : set mem t i w h j = mem h j :=
  if_neg hne

/-- Storing what is there changes nothing. -/
theorem set_self (mem : H → I → W) (t : H) (i : I) : set mem t i (mem t i) = mem := by
  funext h j
  by_cases hij : h = t ∧ j = i
  · obtain ⟨rfl, rfl⟩ := hij
    exact set_same
  · exact set_other hij

theorem set_other_table {h : H} (hne : h ≠ t) (j : I) : set mem t i w h j = mem h j :=
  set_other fun hh => hne hh.1

section Leaf

variable (htree : Tree decode mem root) (hp : follow decode mem 0 root p = some t)
  (hold : ∀ c, decode p.length (mem t i) ≠ .table c) (hnew : ∀ c, decode p.length w ≠ .table c)
include htree hp hold hnew

/-- A store that neither removes nor adds a link leaves every path alone. -/
theorem follow_set (q : List I) :
    follow decode (set mem t i w) 0 root q = follow decode mem 0 root q := by
  induction q using List.reverseRecOn with
  | nil => rfl
  | append_singleton q j ih =>
    rw [follow_append, follow_append, ih]
    cases hq : follow decode mem 0 root q with
    | none => rfl
    | some h =>
      simp only [Option.bind_some, follow, Nat.zero_add]
      by_cases hij : h = t ∧ j = i
      · -- The written word: the path to its table is `p`, so both words are read at its depth.
        obtain ⟨rfl, rfl⟩ := hij
        have hqp : q = p := htree.inj hq hp
        subst hqp
        rw [set_same]
        cases hw : decode q.length w with
        | table c => exact absurd hw (hnew c)
        | _ =>
          cases hm : decode q.length (mem h j) with
          | table c => exact absurd hm (hold c)
          | _ => rfl
      · rw [set_other hij]

theorem Tree.set_leaf (hgood : decode p.length w ≠ .bad) : Tree decode (set mem t i w) root where
  inj := by
    intro q q' h hq hq'
    rw [follow_set htree hp hold hnew] at hq hq'
    exact htree.inj hq hq'
  good := by
    intro q h j hq
    rw [follow_set htree hp hold hnew] at hq
    by_cases hij : h = t ∧ j = i
    · obtain ⟨rfl, rfl⟩ := hij
      rw [htree.inj hq hp, set_same]
      exact hgood
    · rw [set_other hij]
      exact htree.good j hq

/-- Paths that do not run through the written word see nothing. -/
theorem lookup_set_of_not_through (hq : ¬ (p ++ [i]) <+: q) :
    lookup decode (set mem t i w) 0 root q = lookup decode mem 0 root q := by
  apply lookup_congr
  · intro p' h
    rw [follow_set htree hp hold hnew]
  · rintro p' h hf j ⟨rest, hqr⟩ v
    have hij : ¬ (h = t ∧ j = i) := by
      rintro ⟨rfl, rfl⟩
      apply hq
      rw [← htree.inj hf hp, hqr]
      exact ⟨rest, by simp⟩
    rw [set_other hij]

end Leaf

section Link

variable (htree : Tree decode mem root) (hp : follow decode mem 0 root p = some t)
  (hold : decode p.length (mem t i) = .empty) (hnew : decode p.length w = .table c)
  (hfresh : ∀ q, follow decode mem 0 root q ≠ some c)
  (hempty : ∀ j, decode (p.length + 1) (mem c j) = .empty)
include htree hp hold hnew hfresh hempty

/-- Linking a fresh empty table adds exactly one path. -/
theorem follow_link (q : List I) :
    follow decode (set mem t i w) 0 root q =
      if q = p ++ [i] then some c else follow decode mem 0 root q := by
  have hct : c ≠ t := fun h => hfresh p (h ▸ hp)
  have hnone : follow decode mem 0 root (p ++ [i]) = none := by
    rw [follow_append, hp]
    simp only [Option.bind_some, follow, Nat.zero_add, hold]
  induction q using List.reverseRecOn with
  | nil =>
    have hne : ([] : List I) ≠ p ++ [i] := by simp
    rw [if_neg hne]
    rfl
  | append_singleton q j ih =>
    rw [follow_append, ih]
    by_cases hqp : q = p ++ [i]
    · -- Below the new table there is nothing yet.
      have hne : q ++ [j] ≠ p ++ [i] := by
        intro h
        have hlen := congrArg List.length h
        rw [hqp] at hlen
        simp at hlen
      rw [if_pos hqp, if_neg hne, follow_append, hqp, hnone]
      simp only [Option.bind_some, Option.bind_none, follow, Nat.zero_add,
        List.length_append, List.length_singleton, set_other_table hct, hempty]
    · rw [if_neg hqp, follow_append]
      cases hq : follow decode mem 0 root q with
      | none =>
        have hne : q ++ [j] ≠ p ++ [i] := by
          intro h
          rw [(List.append_inj' h rfl).1, hp] at hq
          cases hq
        rw [if_neg hne]
        rfl
      | some h =>
        simp only [Option.bind_some, follow, Nat.zero_add]
        by_cases hij : h = t ∧ j = i
        · obtain ⟨rfl, rfl⟩ := hij
          have hqp' : q = p := htree.inj hq hp
          subst hqp'
          rw [set_same, hnew, if_pos rfl]
        · have hne : q ++ [j] ≠ p ++ [i] := by
            intro heq
            obtain ⟨rfl, hji⟩ := List.append_inj' heq rfl
            rw [hp] at hq
            cases hq
            exact hij ⟨rfl, List.singleton_inj.mp hji⟩
          rw [set_other hij, if_neg hne]

theorem Tree.link : Tree decode (set mem t i w) root := by
  have hct : c ≠ t := fun h => hfresh p (h ▸ hp)
  have hfollow := follow_link htree hp hold hnew hfresh hempty
  constructor
  · intro q q' h hq hq'
    rw [hfollow] at hq hq'
    split at hq
    · rename_i hqp
      split at hq'
      · rename_i hqp'
        rw [hqp, hqp']
      · cases hq
        exact absurd hq' (hfresh q')
    · split at hq'
      · cases hq'
        exact absurd hq (hfresh q)
      · exact htree.inj hq hq'
  · intro q h j hq
    rw [hfollow] at hq
    split at hq
    · rename_i hqp
      cases hq
      rw [set_other_table hct, hqp, List.length_append, List.length_singleton, hempty]
      intro h
      cases h
    · by_cases hij : h = t ∧ j = i
      · obtain ⟨rfl, rfl⟩ := hij
        rw [htree.inj hq hp, set_same, hnew]
        intro h
        cases h
      · rw [set_other hij]
        exact htree.good j hq

/-- The new table holds no leaf and displaces none. -/
theorem lookup_link (q : List I) :
    lookup decode (set mem t i w) 0 root q = lookup decode mem 0 root q := by
  have hct : c ≠ t := fun h => hfresh p (h ▸ hp)
  have hfollow := follow_link htree hp hold hnew hfresh hempty
  apply Option.ext
  rintro ⟨d, v⟩
  rw [lookup_eq_some, lookup_eq_some]
  constructor
  · rintro ⟨p', j, rest, h, hq, rfl, hf, hleaf⟩
    rw [hfollow] at hf
    split at hf
    · rename_i hpp
      cases hf
      rw [set_other_table hct, hpp, List.length_append, List.length_singleton, hempty] at hleaf
      cases hleaf
    · refine ⟨p', j, rest, h, hq, rfl, hf, ?_⟩
      by_cases hij : h = t ∧ j = i
      · obtain ⟨rfl, rfl⟩ := hij
        rw [htree.inj hf hp, set_same, hnew] at hleaf
        cases hleaf
      · rwa [set_other hij] at hleaf
  · rintro ⟨p', j, rest, h, hq, rfl, hf, hleaf⟩
    have hpp : p' ≠ p ++ [i] := by
      rintro rfl
      rw [follow_append, hp] at hf
      simp only [Option.bind_some, follow, Nat.zero_add, hold] at hf
      cases hf
    refine ⟨p', j, rest, h, hq, rfl, ?_, ?_⟩
    · rw [hfollow, if_neg hpp]
      exact hf
    · by_cases hij : h = t ∧ j = i
      · obtain ⟨rfl, rfl⟩ := hij
        rw [htree.inj hf hp, hold] at hleaf
        cases hleaf
      · rw [set_other hij]
        exact hleaf

end Link

end Writing

end Radix
