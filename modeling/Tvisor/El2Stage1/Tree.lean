/-
# Tvisor.El2Stage1.Tree -- the tables as a radix tree

The arena is read as a radix tree: `decode` gives every word its meaning at its depth, and the
invariant `Wf` says that the words reachable from the root form a tree whose tables are pages
already allocated. Under `Wf` the code's `walk` is the library's `lookup`, so it never meets a
corrupt table.

There are two stores that keep the tree: the link of a fresh empty table, which no walk can see,
and a leaf or nothing in the place of a leaf or nothing, which only the walks through that entry
can see. What holds of the tables as long as only links and leaves are added is `Grows`.
-/
import Tvisor.El2Stage1

namespace Tvisor.El2Stage1

open Fallible Page Words

/-! ## Words and their meaning -/

variable {pa table va : Nat} {p : List (Fin 512)} {i : Fin 512}

/-- The meaning of a word in a table `d` levels below the root. Only words that `walk` reads without
complaint and `map` could have written are well formed. -/
def decode (base d w : Nat) : Radix.Entry Nat Nat :=
  if w = 0 then .empty
  else if w % 2 = 0 then .bad
  else if d < 2 ∧ w / 2 % 2 = 1 then
    if base ≤ w &&& addressMask ∧ ((w &&& addressMask) - base) % 4096 = 0 then
      .table (((w &&& addressMask) - base) / 4096)
    else .bad
  else if 2 ≤ d ∧ w / 2 % 2 = 0 then .bad
  else if w / 4 % 8 < 2 then .leaf w
  else .bad

theorem decode_zero (base d : Nat) : decode base d 0 = .empty := rfl

/-- What a leaf word says about an address below it. -/
def translationOf (level w va : Nat) : Translation where
  pa := (w &&& outputMask level) ||| (va &&& (levelSize level - 1))
  memoryType := if w / 4 % 8 = 0 then .normal else .device
  writable := w &&& apReadOnly == 0
  executable := w &&& xn == 0
  level := level

/-- The indices of an address at levels 1 to `level`. -/
def route (level va : Nat) : List (Fin 512) := (List.range' 1 level).map (indexFor · va)

theorem route_succ (level va : Nat) :
    route (level + 1) va = route level va ++ [indexFor (level + 1) va] := by
  unfold route
  rw [List.range'_1_concat, List.map_append, Nat.add_comm 1 level]
  rfl

@[simp] theorem length_route (level va : Nat) : (route level va).length = level := by
  unfold route
  rw [List.length_map, List.length_range']

namespace TableSet

variable {n : Nat}

/-- The table reached along a path. -/
def reach (t : TableSet n) (p : List (Fin 512)) : Option Nat :=
  Radix.follow (decode t.basePa) t.storage 0 0 p

/-- The leaf found along a path. -/
def find (t : TableSet n) (q : List (Fin 512)) : Option (Nat × Nat) :=
  Radix.lookup (decode t.basePa) t.storage 0 0 q

/-- The translation of an address. -/
def view (t : TableSet n) (va : Nat) : Option Translation :=
  (t.find (route 3 va)).map fun leaf => translationOf (leaf.1 + 1) leaf.2 va

/-- The invariant of every table set the builder can reach. -/
structure Wf (t : TableSet n) : Prop where
  used_pos : 0 < t.used
  used_le : t.used ≤ n
  pa_bits : t.paBits ≤ 48
  base_aligned : t.basePa % 4096 = 0
  arena_end : t.basePa + 4096 * n ≤ 2 ^ 48
  tree : Radix.Tree (decode t.basePa) t.storage 0
  reach_used : ∀ {p h}, t.reach p = some h → h < t.used

/-! ## Walking -/

theorem tableIndex_ok {t : TableSet n} (hbase : t.basePa ≤ pa)
    (halign : (pa - t.basePa) % 4096 = 0) (hused : (pa - t.basePa) / 4096 < t.used) :
    t.tableIndex pa = .ok ((pa - t.basePa) / 4096) := by
  unfold tableIndex
  rw [checkedSub_of_le hbase]
  have hal : isPageAligned (pa - t.basePa) = true := isPageAligned_iff.mpr halign
  have hlt : ¬ (pa - t.basePa) / pageSize ≥ t.used := not_le.mpr hused
  simp only [hal, Bool.not_true, Bool.false_eq_true, if_false, if_neg hlt]
  rfl

theorem memoryTypeOf_lt {attr : Nat} (h : attr < 2) :
    memoryTypeOf attr = .ok (if attr = 0 then .normal else .device) := by
  have : attr = 0 ∨ attr = 1 := by omega
  rcases this with rfl | rfl <;> rfl

/-- One level of `walk` does what the meaning of the word says. -/
theorem walkFrom_step {t : TableSet n} {d : Nat} (hd : d < 3) (rest : List Nat)
    (hgood : decode t.basePa d (t.storage table (indexFor (d + 1) va)) ≠ .bad)
    (hused : ∀ c, decode t.basePa d (t.storage table (indexFor (d + 1) va)) = .table c →
      c < t.used) :
    t.walkFrom va ((d + 1) :: rest) table =
      match decode t.basePa d (t.storage table (indexFor (d + 1) va)) with
      | .table c => t.walkFrom va rest c
      | .leaf w => .ok (some (translationOf (d + 1) w va))
      | _ => .ok none := by
  rw [walkFrom]
  generalize t.storage table (indexFor (d + 1) va) = w at hgood hused ⊢
  simp only [land_valid, ne_eq, land_tableOrPage, attr_eq]
  unfold decode at hgood hused ⊢
  by_cases h0 : w = 0
  · simp only [h0, if_true]
  rw [if_neg h0] at hgood hused ⊢
  by_cases hv : w % 2 = 0
  · rw [if_pos hv] at hgood
    exact absurd rfl hgood
  rw [if_neg hv] at hgood hused ⊢
  rw [if_neg hv]
  by_cases htab : d < 2 ∧ w / 2 % 2 = 1
  · -- A link: the walk goes on in the table it names.
    have hcode : d + 1 < 3 ∧ ¬ w / 2 % 2 = 0 := by omega
    rw [if_pos htab] at hgood hused ⊢
    rw [if_pos hcode]
    split at hgood
    · rename_i hlink
      rw [if_pos hlink] at hused ⊢
      rw [tableIndex_ok hlink.1 hlink.2 (hused _ rfl)]
    · exact absurd rfl hgood
  · have hcode : ¬ (d + 1 < 3 ∧ ¬ w / 2 % 2 = 0) := by omega
    rw [if_neg htab] at hgood hused ⊢
    rw [if_neg hcode]
    split at hgood
    · exact absurd rfl hgood
    rename_i hres
    have hcode' : ¬ (d + 1 = 3 ∧ w / 2 % 2 = 0) := by omega
    rw [if_neg hres, if_neg hcode']
    split at hgood
    · rename_i hattr
      rw [if_pos hattr, memoryTypeOf_lt hattr]
      rfl
    · exact absurd rfl hgood

theorem Wf.good {t : TableSet n} (h : t.Wf) (hp : t.reach p = some table) (i : Fin 512) :
    decode t.basePa p.length (t.storage table i) ≠ .bad := h.tree.good i hp

theorem Wf.child_used {t : TableSet n} (h : t.Wf) {c : Nat} (hp : t.reach p = some table)
    (hc : decode t.basePa p.length (t.storage table i) = .table c) : c < t.used :=
  h.reach_used (Radix.follow_concat_eq_some.mpr ⟨table, hp, hc⟩)

/-- From a table on the route of an address, the loop of `walk` finds the leaf below it. -/
theorem walkFrom_eq {t : TableSet n} (h : t.Wf) (va : Nat) : ∀ (m d table : Nat), d + m = 3 →
    t.reach (route d va) = some table →
    t.walkFrom va (List.range' (d + 1) m) table = if m = 0 then .error .corruptTable else
      .ok ((Radix.lookup (decode t.basePa) t.storage d table
        ((List.range' (d + 1) m).map (indexFor · va))).map
          fun leaf => translationOf (leaf.1 + 1) leaf.2 va) := by
  intro m
  induction m with
  | zero => intro d table _ _; rfl
  | succ m ih =>
    intro d table hdm hreach
    rw [List.range'_succ, List.map_cons, if_neg (Nat.succ_ne_zero m)]
    have hgood := h.good hreach (indexFor (d + 1) va)
    have hchild : ∀ c, decode t.basePa (route d va).length
        (t.storage table (indexFor (d + 1) va)) = .table c → c < t.used :=
      fun c hc => h.child_used hreach hc
    rw [length_route] at hgood hchild
    rw [walkFrom_step (by omega) _ hgood hchild]
    simp only [Radix.lookup]
    rcases hdec : decode t.basePa d (t.storage table (indexFor (d + 1) va)) with _ | c | w | _
    · rfl
    · -- The only table at the last level would be a link there, which does not decode.
      have hm : m ≠ 0 := by
        intro hm
        unfold decode at hdec
        split_ifs at hdec
        omega
      have hreach' : t.reach (route (d + 1) va) = some c := by
        rw [route_succ]
        refine Radix.follow_concat_eq_some.mpr ⟨table, hreach, ?_⟩
        rw [length_route]
        exact hdec
      have hnext := ih (d + 1) c (by omega) hreach'
      rw [if_neg hm] at hnext
      exact hnext
    · rfl
    · exact absurd hdec hgood

theorem walk_eq {t : TableSet n} (h : t.Wf) (hva : va < 2 ^ 39) :
    t.walk va = .ok (t.view va) := by
  have hlim : ¬ va ≥ 1 <<< vaBits := not_le.mpr hva
  unfold walk
  rw [if_neg hlim]
  exact walkFrom_eq h va 3 0 0 rfl rfl

theorem walk_of_le {t : TableSet n} (hva : 2 ^ 39 ≤ va) :
    t.walk va = .error .virtualAddressOutOfRange := if_pos hva

end TableSet

/-! ## Leaves -/

variable {level : Nat}

/-- The fields of a leaf descriptor, read back one by one. -/
theorem leaf_fields (mapping : Mapping) (hl : IsLevel level) (halign : pa % levelSize level = 0)
    (hpa : pa < 2 ^ 48) :
    leafDescriptor level pa mapping % 2 = 1 ∧
    leafDescriptor level pa mapping / 2 % 2 = (if level = 3 then 1 else 0) ∧
    leafDescriptor level pa mapping / 4 % 8 = mapping.memoryType.attrIndex ∧
    leafDescriptor level pa mapping / 128 % 2 = (if mapping.writable then 0 else 1) ∧
    leafDescriptor level pa mapping / 2 ^ 54 % 2 = (if mapping.executable then 0 else 1) ∧
    leafDescriptor level pa mapping &&& outputMask level = pa := by
  have hpage := page_of_aligned hl halign
  have hlow := lowBits_lt level mapping
  have hattr : mapping.memoryType.attrIndex ≤ 1 := by
    rcases mapping.memoryType with _ | _ <;> decide
  rw [leafDescriptor_eq hl halign hpa]
  refine ⟨?_, ?_, ?_, ?_, ?_, ?_⟩
  iterate 4
    · unfold lowBits highBits
      split_ifs <;> omega
  · unfold highBits
    split_ifs <;> omega
  · have hmask := fun k => land_outputMask_of_aligned hl halign hpa hlow k
    unfold highBits
    split_ifs
    · simpa using hmask 0
    · simpa using hmask 1

theorem decode_leaf {base : Nat} {mapping : Mapping} (hl : IsLevel level)
    (halign : pa % levelSize level = 0) (hpa : pa < 2 ^ 48) :
    decode base (level - 1) (leafDescriptor level pa mapping) =
      .leaf (leafDescriptor level pa mapping) := by
  obtain ⟨hvalid, htype, hattr, -⟩ := leaf_fields mapping hl halign hpa
  have hle : mapping.memoryType.attrIndex < 2 := by
    rcases mapping.memoryType with _ | _ <;> decide
  generalize leafDescriptor level pa mapping = w at hvalid htype hattr ⊢
  unfold decode
  rw [if_neg (by omega), if_neg (by omega)]
  rcases hl with rfl | rfl | rfl
  · have hblock : w / 2 % 2 = 0 := htype
    rw [if_neg (by omega), if_neg (by omega), if_pos (by omega)]
  · have hblock : w / 2 % 2 = 0 := htype
    rw [if_neg (by omega), if_neg (by omega), if_pos (by omega)]
  · have hleaf : w / 2 % 2 = 1 := htype
    rw [if_neg (by omega), if_neg (by omega), if_pos (by omega)]

/-! ## Routes -/

/-- Two addresses share a route down to a level exactly when one leaf of it covers both. -/
theorem route_eq_iff {va' : Nat} (hl : IsLevel level) (hva : va < 2 ^ 39) (hva' : va' < 2 ^ 39) :
    route level va = route level va' ↔ va' / levelSize level = va / levelSize level := by
  have hidx : ∀ l, indexFor l va = indexFor l va' ↔
      va / 2 ^ shiftOf l % 512 = va' / 2 ^ shiftOf l % 512 := by
    intro l
    rw [Fin.ext_iff, indexFor_val, indexFor_val]
  rcases hl with rfl | rfl | rfl
  · show [indexFor 1 va] = [indexFor 1 va'] ↔ va' / 2 ^ 30 = va / 2 ^ 30
    simp only [List.cons.injEq, hidx, and_true]
    show va / 2 ^ 30 % 512 = va' / 2 ^ 30 % 512 ↔ _
    omega
  · show [indexFor 1 va, indexFor 2 va] = [indexFor 1 va', indexFor 2 va'] ↔
      va' / 2 ^ 21 = va / 2 ^ 21
    simp only [List.cons.injEq, hidx, and_true]
    show va / 2 ^ 30 % 512 = va' / 2 ^ 30 % 512 ∧ va / 2 ^ 21 % 512 = va' / 2 ^ 21 % 512 ↔ _
    omega
  · show [indexFor 1 va, indexFor 2 va, indexFor 3 va] =
      [indexFor 1 va', indexFor 2 va', indexFor 3 va'] ↔ va' / 2 ^ 12 = va / 2 ^ 12
    simp only [List.cons.injEq, hidx, and_true]
    show va / 2 ^ 30 % 512 = va' / 2 ^ 30 % 512 ∧ va / 2 ^ 21 % 512 = va' / 2 ^ 21 % 512 ∧
      va / 2 ^ 12 % 512 = va' / 2 ^ 12 % 512 ↔ _
    omega

/-- The route to a level is where the full route begins. -/
theorem route_prefix (hl : IsLevel level) (va : Nat) :
    ∃ rest, route 3 va = route level va ++ rest := by
  rcases hl with rfl | rfl | rfl
  · exact ⟨[indexFor 2 va, indexFor 3 va], rfl⟩
  · exact ⟨[indexFor 3 va], rfl⟩
  · exact ⟨[], rfl⟩

/-- A walk of `va'` passes the leaf entry of `va` exactly when they share the route to it. -/
theorem route_through_iff {va' : Nat} (hl : IsLevel level) (hva : va < 2 ^ 39)
    (hva' : va' < 2 ^ 39) :
    route level va <+: route 3 va' ↔ va' / levelSize level = va / levelSize level := by
  rw [← route_eq_iff hl hva hva']
  obtain ⟨rest, hrest⟩ := route_prefix hl va'
  rw [hrest]
  constructor
  · rintro ⟨tail, h⟩
    exact (List.append_inj h (by rw [length_route, length_route])).1
  · intro h
    rw [h]
    exact ⟨rest, rfl⟩

namespace TableSet

variable {n : Nat}

/-- The entry of level `level` on the route of an address, when its table is there. -/
theorem route_concat (hl : IsLevel level) (va : Nat) :
    level - 1 + 1 = level ∧ route (level - 1) va ++ [indexFor level va] = route level va := by
  rcases hl with rfl | rfl | rfl <;> exact ⟨rfl, rfl⟩

/-- A walk that passes an entry without a link ends there. -/
theorem view_through {t : TableSet n} {va' : Nat} (hl : IsLevel level) (hva : va < 2 ^ 39)
    (hva' : va' < 2 ^ 39) (hin : va' / levelSize level = va / levelSize level)
    (hp : t.reach (route (level - 1) va) = some table)
    (hlink : ∀ c, decode t.basePa (level - 1) (t.storage table (indexFor level va)) ≠ .table c) :
    t.view va' =
      match decode t.basePa (level - 1) (t.storage table (indexFor level va)) with
      | .leaf w => some (translationOf level w va')
      | _ => none := by
  obtain ⟨hlevel, hroute⟩ := route_concat hl va
  obtain ⟨rest, hrest⟩ := (route_through_iff hl hva hva').mpr hin
  have hpath : route 3 va' = route (level - 1) va ++ indexFor level va :: rest := by
    rw [← hrest, ← hroute, List.append_assoc]
    rfl
  unfold view find
  rw [hpath, Radix.lookup_append hp, Nat.zero_add, length_route]
  simp only [Radix.lookup]
  rcases hdec : decode t.basePa (level - 1) (t.storage table (indexFor level va)) with _ | c | w | _
  · rfl
  · exact absurd hdec (hlink c)
  · show some (translationOf (level - 1 + 1) w va') = _
    rw [hlevel]
  · rfl

/-! ## Storing a leaf -/

/-- A store that neither removes nor adds a link keeps the tree and shows only below the entry. -/
theorem Wf.setEntry {t : TableSet n} (h : t.Wf) {w : Nat} (hl : IsLevel level) (hva : va < 2 ^ 39)
    (hp : t.reach (route (level - 1) va) = some table)
    (hold : ∀ c, decode t.basePa (level - 1) (t.storage table (indexFor level va)) ≠ .table c)
    (hnew : ∀ c, decode t.basePa (level - 1) w ≠ .table c)
    (hgood : decode t.basePa (level - 1) w ≠ .bad) :
    (t.setEntry table (indexFor level va) w).Wf ∧
    (∀ p, (t.setEntry table (indexFor level va) w).reach p = t.reach p) ∧
    ∀ va', va' < 2 ^ 39 → ¬ va' / levelSize level = va / levelSize level →
      (t.setEntry table (indexFor level va) w).view va' = t.view va' := by
  obtain ⟨-, hroute⟩ := route_concat hl va
  have hlen : (route (level - 1) va).length = level - 1 := length_route _ _
  rw [← hlen] at hold hnew hgood
  have hreach : ∀ p, (t.setEntry table (indexFor level va) w).reach p = t.reach p :=
    Radix.follow_set h.tree hp hold hnew
  refine ⟨⟨h.used_pos, h.used_le, h.pa_bits, h.base_aligned, h.arena_end,
    h.tree.set_leaf hp hold hnew hgood, ?_⟩, hreach, ?_⟩
  · intro p c hc
    rw [hreach] at hc
    exact h.reach_used hc
  · intro va' hva' hout
    have hnot : ¬ route (level - 1) va ++ [indexFor level va] <+: route 3 va' := by
      rw [hroute, route_through_iff hl hva hva']
      exact hout
    have hfind : (t.setEntry table (indexFor level va) w).find (route 3 va') =
        t.find (route 3 va') :=
      Radix.lookup_set_of_not_through h.tree hp hold hnew hnot
    unfold view
    rw [hfind]

/-! ## Linking a table -/

/-- Two table sets that no walk tells apart. -/
structure Same (t t' : TableSet n) : Prop where
  basePa : t'.basePa = t.basePa
  find : ∀ q, t'.find q = t.find q

theorem Same.refl (t : TableSet n) : Same t t := ⟨rfl, fun _ => rfl⟩

theorem Same.trans {t₁ t₂ t₃ : TableSet n} (h : Same t₁ t₂) (h' : Same t₂ t₃) : Same t₁ t₃ :=
  ⟨h'.basePa.trans h.basePa, fun q => (h'.find q).trans (h.find q)⟩

theorem Same.view {t t' : TableSet n} (h : Same t t') (va : Nat) : t'.view va = t.view va := by
  unfold TableSet.view
  rw [h.find]

/-- The word `map_leaf` stores to link a table, and its meaning. -/
theorem decode_link {t : TableSet n} (h : t.Wf) {child d : Nat} (hchild : child < n) (hd : d < 2) :
    decode t.basePa d (t.tablePa child ||| valid ||| tableOrPage) = .table child := by
  have hbase := h.base_aligned
  have hend := h.arena_end
  have hpa : t.tablePa child = t.basePa + 4096 * child := by
    unfold tablePa
    rw [Nat.mul_comm]
    rfl
  have hword : t.tablePa child ||| valid ||| tableOrPage = t.basePa + 4096 * child + 3 := by
    rw [Nat.lor_assoc, hpa, lor_eq_add 12 (by omega) (by decide)]
    rfl
  have haddr : (t.basePa + 4096 * child + 3) &&& addressMask = t.basePa + 4096 * child := by
    rw [land_addressMask]
    omega
  rw [hword]
  unfold decode
  have hlink : t.basePa ≤ t.basePa + 4096 * child ∧
      (t.basePa + 4096 * child - t.basePa) % 4096 = 0 := by omega
  rw [haddr, if_neg (by omega), if_neg (by omega), if_pos (by omega), if_pos hlink,
    Nat.add_sub_cancel_left, Nat.mul_div_cancel_left child (by decide)]

/-- Allocating a page clears one that no table names yet. -/
def withPage (t : TableSet n) : TableSet n :=
  { t with
    storage := fun page => if page = t.used then fun _ => 0 else t.storage page
    used := t.used + 1 }

theorem allocatePage_run (t : TableSet n) :
    allocatePage.run t =
      if t.used = n then .error .tableExhausted t else .ok t.used t.withPage := by
  unfold allocatePage
  simp only [EStateM.run_bind, EStateM.run_get, run_ite, EStateM.run_set, EStateM.run_pure,
    run_throw']
  rfl

theorem withPage_storage {t : TableSet n} (h : t.Wf) (hp : t.reach p = some table) (i : Fin 512) :
    t.withPage.storage table i = t.storage table i := by
  have hne : table ≠ t.used := (h.reach_used hp).ne
  show (if table = t.used then fun _ => 0 else t.storage table) i = _
  rw [if_neg hne]

theorem Wf.withPage {t : TableSet n} (h : t.Wf) (hroom : t.used ≠ n) :
    t.withPage.Wf ∧ Same t t.withPage ∧ ∀ p, t.withPage.reach p = t.reach p := by
  have hsame : ∀ p table, t.reach p = some table → ∀ i,
      t.withPage.storage table i = t.storage table i := fun _ _ hp => withPage_storage h hp
  have hreach : ∀ p, t.withPage.reach p = t.reach p := Radix.follow_congr hsame
  refine ⟨⟨Nat.succ_pos _, ?_, h.pa_bits, h.base_aligned, h.arena_end, h.tree.frame hsame, ?_⟩,
    ⟨rfl, Radix.lookup_frame hsame⟩, hreach⟩
  · show t.used + 1 ≤ n
    have := h.used_le
    omega
  · intro p table hp
    rw [hreach] at hp
    exact Nat.lt_succ_of_lt (h.reach_used hp)

/-- A page is allocated and linked in an entry. -/
def linked (t : TableSet n) (table : Nat) (i : Fin 512) : TableSet n :=
  t.withPage.setEntry table i (t.withPage.tablePa t.used ||| valid ||| tableOrPage)

/-- The new table is reached through its entry, everything else as before. -/
theorem Wf.linkPage {t : TableSet n} (h : t.Wf) (hroom : t.used ≠ n) (hp : t.reach p = some table)
    (hlen : p.length < 2) (hempty : t.storage table i = 0) :
    (t.linked table i).Wf ∧ Same t (t.linked table i) ∧
    ∀ q, (t.linked table i).reach q = if q = p ++ [i] then some t.used else t.reach q := by
  obtain ⟨hwf, hsame, hreach⟩ := h.withPage hroom
  have hchild : t.used < n := lt_of_le_of_ne h.used_le hroom
  have hp' : Radix.follow (decode t.basePa) t.withPage.storage 0 0 p = some table :=
    (hreach p).trans hp
  have hold : decode t.basePa p.length (t.withPage.storage table i) = .empty := by
    rw [withPage_storage h hp, hempty]
    exact decode_zero _ _
  have hnew := decode_link hwf hchild hlen
  -- Reachable tables were allocated before, so the new page is none of them.
  have hfresh : ∀ q, Radix.follow (decode t.basePa) t.withPage.storage 0 0 q ≠ some t.used := by
    intro q hq
    exact absurd (h.reach_used ((hreach q).symm.trans hq)) (lt_irrefl _)
  have hzero : ∀ j, decode t.basePa (p.length + 1) (t.withPage.storage t.used j) = .empty := by
    intro j
    show decode t.basePa (p.length + 1)
      ((if t.used = t.used then fun _ => 0 else t.storage t.used) j) = .empty
    rw [if_pos rfl]
    exact decode_zero _ _
  have hfollow := Radix.follow_link hwf.tree hp' hold hnew hfresh hzero
  refine ⟨⟨hwf.used_pos, hwf.used_le, hwf.pa_bits, hwf.base_aligned, hwf.arena_end,
    Radix.Tree.link hwf.tree hp' hold hnew hfresh hzero, ?_⟩, ⟨rfl, ?_⟩, ?_⟩
  · intro q c hq
    have hq' := (hfollow q).symm.trans hq
    split at hq'
    · cases hq'
      exact Nat.lt_succ_self _
    · exact hwf.reach_used hq'
  · intro q
    exact (Radix.lookup_link hwf.tree hp' hold hnew hfresh hzero q).trans (hsame.find q)
  · intro q
    rw [← hreach q]
    exact hfollow q

section Linked

variable {t : TableSet n}

theorem linked_fresh (h : t.Wf) (hp : t.reach p = some table) (j : Fin 512) :
    (t.linked table i).storage t.used j = 0 := by
  have hne : ¬ (t.used = table ∧ j = i) := fun heq => (h.reach_used hp).ne heq.1.symm
  show Radix.set t.withPage.storage table i _ t.used j = 0
  rw [Radix.set_other hne]
  show (if t.used = t.used then fun _ => 0 else t.storage t.used) j = 0
  rw [if_pos rfl]

theorem linked_storage (h : t.Wf) {q : List (Fin 512)} {other : Nat} (hq : t.reach q = some other)
    {j : Fin 512} (hne : ¬ (other = table ∧ j = i)) :
    (t.linked table i).storage other j = t.storage other j := by
  show Radix.set t.withPage.storage table i _ other j = _
  rw [Radix.set_other hne, withPage_storage h hq]

/-- Nothing is reached through an entry that holds nothing. -/
theorem reach_of_empty (hp : t.reach p = some table) (hempty : t.storage table i = 0) (c : Nat) :
    t.reach (p ++ [i]) ≠ some c := by
  intro hc
  obtain ⟨other, hother, hdec⟩ := Radix.follow_concat_eq_some.mp hc
  cases hp.symm.trans hother
  rw [hempty, decode_zero] at hdec
  cases hdec

end Linked

/-! ## Growing -/

/-- A word that `leaf_descriptor` gives at this level. -/
def LeafWord (level w : Nat) : Prop :=
  ∃ pa mapping, pa % levelSize level = 0 ∧ pa < 2 ^ 48 ∧ w = leafDescriptor level pa mapping

/-- The tables have only grown: links and filled entries are as they were, and the leaves that came
in are words of `leaf_descriptor`. -/
structure Grows (t t' : TableSet n) : Prop where
  basePa : t'.basePa = t.basePa
  paBits : t'.paBits = t.paBits
  reach : ∀ {p table}, t.reach p = some table → t'.reach p = some table
  kept : ∀ {p table}, t.reach p = some table → ∀ i, t.storage table i ≠ 0 →
    t'.storage table i = t.storage table i
  leaves : ∀ {p table}, t'.reach p = some table → ∀ i w,
    decode t'.basePa p.length (t'.storage table i) = .leaf w →
      (t.reach p = some table ∧ t.storage table i = t'.storage table i) ∨ LeafWord (p.length + 1) w

theorem Grows.refl (t : TableSet n) : Grows t t where
  basePa := rfl
  paBits := rfl
  reach := id
  kept := fun _ _ _ => rfl
  leaves := fun hp _ _ _ => Or.inl ⟨hp, rfl⟩

theorem Grows.trans {t₁ t₂ t₃ : TableSet n} (h : Grows t₁ t₂) (h' : Grows t₂ t₃) :
    Grows t₁ t₃ where
  basePa := h'.basePa.trans h.basePa
  paBits := h'.paBits.trans h.paBits
  reach := fun hp => h'.reach (h.reach hp)
  kept := by
    intro p table hp i hne
    have hmid := h.kept hp i hne
    rw [← hmid]
    exact h'.kept (h.reach hp) i (by rw [hmid]; exact hne)
  leaves := by
    intro p table hp i w hdec
    rcases h'.leaves hp i w hdec with ⟨hmid, heq⟩ | hword
    · have hdec' : decode t₂.basePa p.length (t₂.storage table i) = .leaf w := by
        rw [heq, ← h'.basePa]
        exact hdec
      rcases h.leaves hmid i w hdec' with ⟨hold, heq'⟩ | hword
      · exact Or.inl ⟨hold, heq'.trans heq⟩
      · exact Or.inr hword
    · exact Or.inr hword

theorem Wf.grows_linked {t : TableSet n} (h : t.Wf) (hroom : t.used ≠ n)
    (hp : t.reach p = some table) (hlen : p.length < 2) (hempty : t.storage table i = 0) :
    Grows t (t.linked table i) := by
  obtain ⟨hwf, -, hreach⟩ := h.linkPage hroom hp hlen hempty
  constructor
  case basePa => rfl
  case paBits => rfl
  case reach =>
    intro q other hq
    rw [hreach, if_neg]
    · exact hq
    · rintro rfl
      exact reach_of_empty hp hempty _ hq
  case kept =>
    intro q other hq j hne
    apply linked_storage h hq
    rintro ⟨rfl, rfl⟩
    exact hne hempty
  case leaves =>
    intro q other hq j w hdec
    rw [hreach] at hq
    split at hq
    · cases hq
      rw [linked_fresh h hp, decode_zero] at hdec
      cases hdec
    · left
      refine ⟨hq, (linked_storage h hq ?_).symm⟩
      -- The written entry holds a link.
      rintro ⟨rfl, rfl⟩
      have hword : (t.linked other j).storage other j =
        t.withPage.tablePa t.used ||| valid ||| tableOrPage := Radix.set_same
      have hchild : t.used < n := lt_of_le_of_ne h.used_le hroom
      rw [hword, h.tree.inj hq hp] at hdec
      rw [show (t.linked other j).basePa = t.withPage.basePa from rfl,
        decode_link (h.withPage hroom).1 hchild hlen] at hdec
      cases hdec

/-- A leaf in the place of nothing, or of itself. -/
theorem Wf.grows_setLeaf {t : TableSet n} (h : t.Wf) {mapping : Mapping} (hl : IsLevel level)
    (hpaAlign : pa % levelSize level = 0) (hpa : pa < 2 ^ 48)
    (hp : t.reach (route (level - 1) va) = some table)
    (hreach : ∀ p, (t.setEntry table (indexFor level va)
      (leafDescriptor level pa mapping)).reach p = t.reach p)
    (hentry : t.storage table (indexFor level va) = 0 ∨
      t.storage table (indexFor level va) = leafDescriptor level pa mapping) :
    Grows t (t.setEntry table (indexFor level va) (leafDescriptor level pa mapping)) := by
  have hlevel := (route_concat hl va).1
  constructor
  case basePa => rfl
  case paBits => rfl
  case reach =>
    intro p other hother
    rw [hreach]
    exact hother
  case kept =>
    intro p other hother i hne
    by_cases hi : other = table ∧ i = indexFor level va
    · obtain ⟨rfl, rfl⟩ := hi
      exact Radix.set_same.trans (hentry.resolve_left hne).symm
    · exact Radix.set_other hi
  case leaves =>
    intro p other hother i w hdec
    rw [hreach] at hother
    by_cases hi : other = table ∧ i = indexFor level va
    · obtain ⟨rfl, rfl⟩ := hi
      have hpath := h.tree.inj hother hp
      have hstored : (t.setEntry other (indexFor level va)
        (leafDescriptor level pa mapping)).storage other (indexFor level va) =
          leafDescriptor level pa mapping := Radix.set_same
      rw [hstored, hpath, length_route, decode_leaf hl hpaAlign hpa] at hdec
      cases hdec
      rw [hpath, length_route, hlevel]
      exact Or.inr ⟨pa, mapping, hpaAlign, hpa, rfl⟩
    · exact Or.inl ⟨hother, (Radix.set_other hi).symm⟩

end TableSet

end Tvisor.El2Stage1
