/-
# Tvisor.Fdt.Search -- the path buffer of the search for the interrupt controller

`find_gic_v2` goes through the tree depth first. All levels of the recursion and all siblings share
one buffer of 256 bytes, each call is told how many of them are its path, and the controller's
registers are translated through the buses that this path names.

The model below has that buffer, and a slice or an index outside of it is a panic. Beside it every
visit is recorded with the bytes that the call takes for its path. `gic_search_keeps_path` says what
they are: the nodes of the tree in depth-first order, each with its own absolute path. The search as
a whole is then a scan of that order, which ends at the first controller or at the first path that
does not fit.
-/
import Tvisor.Fdt.Windows
import Tvisor.Lib.Buffer

namespace Tvisor.Fdt.Search

open Buffer Fallible Words
open Platform (Status)

/-! ## The source -/

abbrev PathBuffer := Vector UInt8 maxFdtPath

/-- The buffer, and the nodes that were visited, each with what the buffer held for its path. -/
structure State where
  path : PathBuffer
  visits : List (List UInt8 × DeviceNode)

abbrev Run := EStateM (Stop GicV2DiscoveryError) State

/-- A write to the buffer. -/
def update (f : PathBuffer → Run PathBuffer) : Run Unit := do
  let path ← f (← get).path
  modify fun s => { s with path }

/-- `path[i] = byte` -/
def setByte (i : Nat) (byte : UInt8) : Run Unit := update fun path => writeAt path i byte

/-- `path[start..stop].copy_from_slice(bytes)` -/
def copySlice (start stop : Nat) (bytes : List UInt8) : Run Unit :=
  update fun path => copyFromSlice path start stop bytes

/-- For the record only; nothing is read from it. -/
def visit (node : DeviceNode) (pathLen : Nat) : Run Unit :=
  modify fun s => { s with visits := s.visits ++ [(s.path.toList.take pathLen, node)] }

/-- `usize::from(path_len != 1)` -/
def separator (pathLen : Nat) : Nat := if pathLen ≠ 1 then 1 else 0

/-- The length of the path of a child. -/
def nextLen (pathLen : Nat) (name : List UInt8) : Except GicV2DiscoveryError Nat := do
  let next ← okOr .pathTooLong ((checkedAdd pathLen (separator pathLen)).bind fun length =>
    checkedAdd length name.length)
  if maxFdtPath < next then .error .pathTooLong else .ok next

/-- The path of a child is written behind that of its parent. -/
def writeChild (pathLen next : Nat) (name : List UInt8) : Run Unit := do
  (if separator pathLen ≠ 0 then setByte pathLen slash else pure ())
  copySlice (pathLen + separator pathLen) next name

/-- A compatible node. Names are texts, so the bytes of a path are always UTF-8. -/
def decodeAt (root node : DeviceNode) (pathLen : Nat) : Run (Option GicV2Info) := do
  let status ← lift (node.status.mapError fun _ => .error .disabledController)
  (if status ≠ .okay then throw (.error .disabledController) else pure ())
  let path ← takeSlice (← get).path pathLen
  lift (((decodeGicV2 root node path).map some).mapError .error)

mutual

def findGicV2 (root : DeviceNode) (node : DeviceNode) (pathLen : Nat) :
    Run (Option GicV2Info) :=
  match node with
  | ⟨name, compatible, status, reg, ranges, interrupts, texts, children⟩ => do
    let node : DeviceNode :=
      ⟨name, compatible, status, reg, ranges, interrupts, texts, children⟩
    visit node pathLen
    if isGicV2 node then decodeAt root node pathLen
    else findGicV2Among root children pathLen

/-- `for child in node.children()` -/
def findGicV2Among (root : DeviceNode) (children : List DeviceNode) (pathLen : Nat) :
    Run (Option GicV2Info) :=
  match children with
  | [] => pure none
  | child :: rest => do
    let next ← lift ((nextLen pathLen child.name).mapError .error)
    writeChild pathLen next child.name
    match ← findGicV2 root child next with
    | some info => pure (some info)
    | none => findGicV2Among root rest pathLen

end

def discoverGicV2 (root : DeviceNode) : Run GicV2Info := do
  setByte 0 slash
  let found ← findGicV2 root root 1
  orThrow (.error .missingController) found

/-- The search of a tree, with its buffer zeroed. -/
def searched (root : DeviceNode) :
    EStateM.Result (Stop GicV2DiscoveryError) State GicV2Info :=
  (discoverGicV2 root).run ⟨Vector.replicate maxFdtPath 0, []⟩

/-! ## Depth-first order -/

/-- The absolute path: a slash before every name, and for the root a slash alone. -/
def absolutePath : List (List UInt8) → List UInt8
  | [] => rootPath
  | names => names.flatMap (slash :: ·)

/-- A node of the tree: the names on the way to it, its ancestors from its parent up to the root,
and itself. -/
structure Place where
  names : List (List UInt8)
  above : List DeviceNode
  node : DeviceNode

def Place.path (p : Place) : List UInt8 := absolutePath p.names

mutual

def preorder (node : DeviceNode) (names : List (List UInt8)) (above : List DeviceNode) :
    List Place :=
  match node with
  | ⟨name, compatible, status, reg, ranges, interrupts, texts, children⟩ =>
    let node : DeviceNode :=
      ⟨name, compatible, status, reg, ranges, interrupts, texts, children⟩
    ⟨names, above, node⟩ :: preorderAmong children names (node :: above)

def preorderAmong (children : List DeviceNode) (names : List (List UInt8))
    (above : List DeviceNode) : List Place :=
  match children with
  | [] => []
  | child :: rest =>
    preorder child (names ++ [child.name]) above ++ preorderAmong rest names above

end

/-- The nodes of a tree in depth-first order. -/
def places (root : DeviceNode) : List Place := preorder root [] []

/-- The places of a tree, as a relation. -/
inductive Located (root : DeviceNode) : Place → Prop
  | root : Located root ⟨[], [], root⟩
  | child {p : Place} {child : DeviceNode} (h : Located root p) (hchild : child ∈ p.node.children) :
      Located root ⟨p.names ++ [child.name], p.node :: p.above, child⟩

variable {root child : DeviceNode} {names : List (List UInt8)} {above : List DeviceNode} {p : Place}
  {s : State} {path name : List UInt8} {info : GicV2Info}

mutual

theorem located_preorder (node : DeviceNode) {names : List (List UInt8)}
    {above : List DeviceNode} (h : Located root ⟨names, above, node⟩) :
    ∀ p ∈ preorder node names above, Located root p := by
  match node with
  | ⟨name, compatible, status, reg, ranges, interrupts, texts, children⟩ =>
    intro p hp
    rw [preorder] at hp
    rcases List.mem_cons.mp hp with rfl | hp
    · exact h
    · exact located_preorderAmong children h (fun _ hchild => hchild) p hp

theorem located_preorderAmong (children : List DeviceNode) {q : Place} (h : Located root q)
    (hchildren : children ⊆ q.node.children) :
    ∀ p ∈ preorderAmong children q.names (q.node :: q.above), Located root p := by
  match children with
  | [] =>
    intro p hp
    rw [preorderAmong] at hp
    cases hp
  | child :: rest =>
    intro p hp
    rw [preorderAmong] at hp
    rcases List.mem_append.mp hp with hp | hp
    · exact located_preorder child (h.child (hchildren List.mem_cons_self)) p hp
    · exact located_preorderAmong rest h (fun _ hmem => hchildren (List.mem_cons_of_mem _ hmem))
        p hp

end

theorem preorder_head (node : DeviceNode) (names : List (List UInt8)) (above : List DeviceNode) :
    ∃ rest, preorder node names above = ⟨names, above, node⟩ :: rest := by
  rcases node with ⟨name, compatible, status, reg, ranges, interrupts, texts, children⟩
  rw [preorder]
  exact ⟨_, rfl⟩

theorem mem_preorderAmong {children : List DeviceNode} (h : child ∈ children) :
    ⟨names ++ [child.name], above, child⟩ ∈ preorderAmong children names above := by
  induction children with
  | nil => cases h
  | cons first rest ih =>
    rw [preorderAmong]
    rcases List.mem_cons.mp h with rfl | h
    · obtain ⟨tail, htail⟩ := preorder_head child (names ++ [child.name]) above
      rw [htail]
      exact List.mem_append_left _ List.mem_cons_self
    · exact List.mem_append_right _ (ih h)

mutual

theorem child_mem_preorder (node : DeviceNode) {names : List (List UInt8)}
    {above : List DeviceNode} (hp : p ∈ preorder node names above)
    (hchild : child ∈ p.node.children) :
    ⟨p.names ++ [child.name], p.node :: p.above, child⟩ ∈ preorder node names above := by
  match node with
  | ⟨name, compatible, status, reg, ranges, interrupts, texts, children⟩ =>
    rw [preorder] at hp ⊢
    refine List.mem_cons_of_mem _ ?_
    rcases List.mem_cons.mp hp with rfl | hp
    · exact mem_preorderAmong hchild
    · exact child_mem_preorderAmong children hp hchild

theorem child_mem_preorderAmong (children : List DeviceNode) {names : List (List UInt8)}
    {above : List DeviceNode} (hp : p ∈ preorderAmong children names above)
    (hchild : child ∈ p.node.children) :
    ⟨p.names ++ [child.name], p.node :: p.above, child⟩ ∈ preorderAmong children names above := by
  match children with
  | [] =>
    rw [preorderAmong] at hp
    cases hp
  | first :: rest =>
    rw [preorderAmong] at hp ⊢
    rcases List.mem_append.mp hp with hp | hp
    · exact List.mem_append_left _ (child_mem_preorder first hp hchild)
    · exact List.mem_append_right _ (child_mem_preorderAmong rest hp hchild)

end

theorem mem_places : p ∈ places root ↔ Located root p := by
  refine ⟨located_preorder root .root p, fun h => ?_⟩
  induction h with
  | root =>
    obtain ⟨tail, htail⟩ := preorder_head root [] []
    rw [places, htail]
    exact List.mem_cons_self
  | child h hchild ih => exact child_mem_preorder root ih hchild

/-! ## Names and paths -/

/-- Names are not empty and have no slash in them. -/
def WellNamed (root : DeviceNode) : Prop :=
  ∀ p, Located root p → ∀ name ∈ p.names, name ≠ [] ∧ slash ∉ name

/-- Every node is found under its absolute path. -/
def ExactLookup (root : DeviceNode) : Prop :=
  ∀ p, Located root p → root.findNode p.path = some p.node

theorem absolutePath_append (names : List (List UInt8)) (name : List UInt8) :
    absolutePath (names ++ [name]) = names.flatMap (slash :: ·) ++ slash :: name := by
  cases names with
  | nil => simp [absolutePath]
  | cons first rest =>
    show ((first :: rest) ++ [name]).flatMap (slash :: ·) = _
    rw [List.flatMap_append, List.flatMap_singleton]

theorem absolutePath_of_ne (h : names ≠ []) :
    absolutePath names = names.flatMap (slash :: ·) := by
  cases names with
  | nil => exact absurd rfl h
  | cons first rest => rfl

theorem length_absolutePath (h : ∀ name ∈ names, name ≠ []) :
    (absolutePath names).length = 1 ↔ names = [] := by
  cases names with
  | nil => exact iff_of_true rfl rfl
  | cons first rest =>
    have hpos : 0 < first.length := List.length_pos_of_ne_nil (h first List.mem_cons_self)
    refine iff_of_false ?_ (by simp)
    rw [absolutePath_of_ne (by simp), List.flatMap_cons, List.length_append, List.length_cons]
    omega

/-- The separator is left out after the root's slash only. -/
theorem childPath_absolutePath (h : ∀ name ∈ names, name ≠ []) (name : List UInt8) :
    childPath (absolutePath names) name = absolutePath (names ++ [name]) := by
  rw [childPath, absolutePath_append]
  by_cases hroot : names = []
  · subst hroot
    rfl
  · rw [if_neg (mt (length_absolutePath h).mp hroot), absolutePath_of_ne hroot]

/-- The last name is what `rfind('/')` cuts off. -/
theorem parentPath_absolutePath (hne : name ≠ []) (hslash : slash ∉ name) :
    parentPath (absolutePath (names ++ [name])) = some (absolutePath names) := by
  have hroot : absolutePath (names ++ [name]) ≠ rootPath := by
    rw [absolutePath_append]
    intro heq
    have hlength := congrArg List.length heq
    have hpos : 0 < name.length := List.length_pos_of_ne_nil hne
    simp only [rootPath, List.length_append, List.length_cons, List.length_nil] at hlength
    omega
  have hhead : (absolutePath (names ++ [name])).head? = some slash := by
    rw [absolutePath_append]
    cases names with
    | nil => rfl
    | cons first rest => rfl
  have hcut : ((absolutePath (names ++ [name])).reverse.dropWhile (· ≠ slash)).tail.reverse =
      names.flatMap (slash :: ·) := by
    have hname : ∀ byte ∈ name.reverse, decide (byte ≠ slash) = true := fun byte hbyte =>
      decide_eq_true (ne_of_mem_of_not_mem (List.mem_reverse.mp hbyte) hslash)
    rw [absolutePath_append, List.reverse_append, List.reverse_cons, List.append_assoc,
      List.dropWhile_append_of_pos hname]
    simp
  rw [parentPath, if_neg (by simp [hroot, hhead]), hcut]
  cases names with
  | nil => rfl
  | cons first rest => rfl

/-! ## Writing a path -/

theorem length_childPath (path name : List UInt8) :
    (childPath path name).length = path.length + separator path.length + name.length := by
  by_cases hone : path.length = 1
  · rw [childPath, if_pos hone, separator, if_neg (not_not.mpr hone), List.length_append,
      Nat.add_zero]
  · rw [childPath, if_neg hone, separator, if_pos hone, List.length_append, List.length_cons]
    omega

/-- The checked sum fails only where the sum is too long anyway. -/
theorem nextLen_eq (path name : List UInt8) :
    nextLen path.length name =
      if maxFdtPath < (childPath path name).length then .error .pathTooLong
      else .ok (childPath path name).length := by
  have hword : maxFdtPath < wordBound := by decide
  rw [length_childPath]
  unfold nextLen
  by_cases hfits : path.length + separator path.length + name.length < wordBound
  · rw [checkedAdd_of_lt (by omega), Option.bind_some, checkedAdd_of_lt hfits]
    rfl
  · have hnone : ((checkedAdd path.length (separator path.length)).bind fun length =>
        checkedAdd length name.length) = none := by
      rw [Option.bind_eq_none_iff]
      intro length hlength
      obtain ⟨-, rfl⟩ := checkedAdd_eq_some.mp hlength
      exact checkedAdd_eq_none.mpr (by omega)
    rw [hnone, if_pos (by omega)]
    rfl

theorem run_update {f : PathBuffer → Run PathBuffer} {buffer : PathBuffer}
    (h : f s.path = pure buffer) : (update f).run s = .ok () { s with path := buffer } := by
  show EStateM.run (f s.path >>= fun path => modify fun s => { s with path }) s = _
  rw [h]
  rfl

theorem run_copySlice (h : path <+: s.path.toList) {next : Nat}
    (hnext : next = path.length + name.length) (hfit : next ≤ maxFdtPath) :
    ∃ buffer, path ++ name <+: buffer.toList ∧
      (copySlice path.length next name).run s = .ok () { s with path := buffer } := by
  refine ⟨overwrite s.path path.length name, append_prefix_overwrite h (hnext ▸ hfit), ?_⟩
  refine run_update ?_
  rw [copyFromSlice, if_pos ⟨by omega, hfit, by omega⟩]

/-- Whatever was behind the parent's path, the buffer then holds the child's. -/
theorem run_writeChild (h : path <+: s.path.toList)
    (hfit : (childPath path name).length ≤ maxFdtPath) :
    ∃ buffer, childPath path name <+: buffer.toList ∧
      (writeChild path.length (childPath path name).length name).run s =
        .ok () { s with path := buffer } := by
  have hlength := length_childPath path name
  by_cases hone : path.length = 1
  · have hsep : separator path.length = 0 := if_neg (not_not.mpr hone)
    have hchild : childPath path name = path ++ name := if_pos hone
    rw [hsep, Nat.add_zero] at hlength
    rw [hchild] at hlength hfit ⊢
    obtain ⟨buffer, hbuffer, hrun⟩ := run_copySlice h hlength hfit
    refine ⟨buffer, hbuffer, ?_⟩
    rw [writeChild, hsep]
    exact hrun
  · have hsep : separator path.length = 1 := if_pos hone
    have hchild : childPath path name = (path ++ [slash]) ++ name := by
      rw [childPath, if_neg hone, List.append_assoc, List.singleton_append]
    rw [hsep] at hlength
    have hroom : path.length < maxFdtPath := by omega
    -- The separator extends the parent's path by a byte, and the name that by its bytes.
    have hset : (setByte path.length slash).run s =
        .ok () { s with path := s.path.set path.length slash hroom } :=
      run_update (writeAt_of_lt hroom slash)
    have hlonger : path ++ [slash] <+: (s.path.set path.length slash hroom).toList :=
      append_prefix_set h hroom slash
    have hsum : (childPath path name).length = (path ++ [slash]).length + name.length := by
      rw [hlength, List.length_append, List.length_singleton]
    obtain ⟨buffer, hbuffer, hrun⟩ :=
      run_copySlice (s := { s with path := s.path.set path.length slash hroom }) hlonger hsum hfit
    rw [List.length_append, List.length_singleton] at hrun
    refine ⟨buffer, hchild ▸ hbuffer, ?_⟩
    rw [writeChild, hsep, if_pos one_ne_zero, EStateM.run_bind, hset]
    exact hrun

/-! ## The search is a scan -/

/-- What is made of the first controller. -/
def controller (root node : DeviceNode) (path : List UInt8) :
    Except GicV2DiscoveryError (Option GicV2Info) := do
  let status ← node.status.mapError fun _ => .disabledController
  (if status ≠ .okay then throw .disabledController else pure ())
  (decodeGicV2 root node path).map some

/-- The search on the nodes in their order: what it visits, with the paths, and its result. -/
def scan (root : DeviceNode) :
    List Place → List (List UInt8 × DeviceNode) × Except GicV2DiscoveryError (Option GicV2Info)
  | [] => ([], .ok none)
  | p :: rest =>
      if maxFdtPath < p.path.length then ([], .error .pathTooLong)
      else if isGicV2 p.node then ([(p.path, p.node)], controller root p.node p.path)
      else ((p.path, p.node) :: (scan root rest).1, (scan root rest).2)

theorem controller_ne_none {node : DeviceNode} :
    controller root node path ≠ .ok none := by
  intro h
  obtain ⟨status, -, h⟩ := bind_eq_ok.mp h
  obtain ⟨-, -, h⟩ := bind_eq_ok.mp h
  cases hdecode : decodeGicV2 root node path with
  | error e =>
    rw [hdecode] at h
    cases h
  | ok info =>
    rw [hdecode] at h
    cases h

/-- A scan that ends without a result goes on with what follows. -/
theorem scan_append_of_none {first : List Place} (h : (scan root first).2 = .ok none)
    (second : List Place) :
    scan root (first ++ second) =
      ((scan root first).1 ++ (scan root second).1, (scan root second).2) := by
  induction first with
  | nil => rfl
  | cons p rest ih =>
    rw [List.cons_append, scan]
    rw [scan] at h ⊢
    split_ifs at h ⊢ with hlong hgic
    · exact absurd h controller_ne_none
    · rw [ih h]
      rfl

theorem scan_append_of_ne {first : List Place} (h : (scan root first).2 ≠ .ok none)
    (second : List Place) : scan root (first ++ second) = scan root first := by
  induction first with
  | nil => exact absurd rfl h
  | cons p rest ih =>
    rw [List.cons_append, scan, scan]
    rw [scan] at h
    split_ifs at h ⊢ with hlong hgic
    · rfl
    · rfl
    · rw [ih h]

/-- A run that visits what the scan visits and ends as it ends. The buffer holds `path` again when
the run returns; no run ends in a panic. -/
def Follows (root : DeviceNode) (path : List UInt8) (ps : List Place) (s : State) :
    EStateM.Result (Stop GicV2DiscoveryError) State (Option GicV2Info) → Prop
  | .ok found s' => (scan root ps).2 = .ok found ∧ s'.visits = s.visits ++ (scan root ps).1 ∧
      path <+: s'.path.toList
  | .error (.error e) s' => (scan root ps).2 = .error e ∧ s'.visits = s.visits ++ (scan root ps).1
  | .error .panicked _ => False

theorem run_decodeAt (h : path <+: s.path.toList) (node : DeviceNode) :
    (decodeAt root node path.length).run s =
      (lift ((controller root node path).mapError .error) : Run (Option GicV2Info)).run s := by
  unfold decodeAt controller
  cases node.status with
  | error e => rfl
  | ok status =>
    cases status with
    | okay =>
      show EStateM.run (takeSlice s.path path.length >>= fun path => _) s = _
      rw [takeSlice_of_held h]
      rfl
    | _ => rfl

theorem follows_decodeAt (rest : List Place) (hgic : isGicV2 p.node = true)
    (h : p.path <+: s.path.toList) :
    Follows root p.path (p :: rest) s
      ((decodeAt root p.node p.path.length).run
        { s with visits := s.visits ++ [(p.path, p.node)] }) := by
  have hscan : scan root (p :: rest) = ([(p.path, p.node)], controller root p.node p.path) := by
    rw [scan, if_neg (not_lt.mpr (length_le h)), if_pos hgic]
  rw [run_decodeAt (s := { s with visits := s.visits ++ [(p.path, p.node)] }) h]
  cases hcontroller : controller root p.node p.path with
  | ok found =>
    refine ⟨?_, ?_, h⟩
    · rw [hscan, hcontroller]
    · rw [hscan]
  | error e =>
    refine ⟨?_, ?_⟩
    · rw [hscan, hcontroller]
    · rw [hscan]

/-- A node that is visited and passed over. -/
theorem Follows.cons {rest : List Place}
    {r : EStateM.Result (Stop GicV2DiscoveryError) State (Option GicV2Info)}
    (hfits : p.path.length ≤ maxFdtPath) (hgic : isGicV2 p.node = false)
    (h : Follows root path rest { s with visits := s.visits ++ [(p.path, p.node)] } r) :
    Follows root path (p :: rest) s r := by
  have hscan : scan root (p :: rest) =
      ((p.path, p.node) :: (scan root rest).1, (scan root rest).2) := by
    rw [scan, if_neg (not_lt.mpr hfits), if_neg (by rw [hgic]; exact Bool.false_ne_true)]
  unfold Follows at h ⊢
  rw [hscan]
  split at h
  · obtain ⟨hresult, hvisits, hpath⟩ := h
    exact ⟨hresult, by rw [hvisits, List.append_assoc]; rfl, hpath⟩
  · obtain ⟨hresult, hvisits⟩ := h
    exact ⟨hresult, by rw [hvisits, List.append_assoc]; rfl⟩
  · exact h

/-- The search of a child, and of its siblings if it finds nothing. The child has a longer path, so
the buffer still holds that of the parent. -/
theorem Follows.append {path next : List UInt8} (hbegins : path <+: next)
    {first second : List Place} {x k : Run (Option GicV2Info)}
    (h : Follows root next first s (x.run s))
    (hk : ∀ s' : State, path <+: s'.path.toList → Follows root path second s' (k.run s')) :
    Follows root path (first ++ second) s (EStateM.run (do
      match ← x with
      | some info => pure (some info)
      | none => k) s) := by
  rw [EStateM.run_bind]
  generalize x.run s = r at h ⊢
  rcases r with ⟨found, s'⟩ | ⟨e, s'⟩
  · obtain ⟨hresult, hvisits, hpath⟩ := h
    cases found with
    | some info =>
      have hstop : (scan root first).2 ≠ .ok none := by
        rw [hresult]
        nofun
      have hscan := scan_append_of_ne hstop second
      exact ⟨hscan ▸ hresult, hscan ▸ hvisits, hbegins.trans hpath⟩
    | none =>
      have hscan := scan_append_of_none hresult second
      have hrest := hk s' (hbegins.trans hpath)
      show Follows root path (first ++ second) s (k.run s')
      unfold Follows at hrest ⊢
      rw [hscan]
      split at hrest
      · obtain ⟨hresult', hvisits', hpath'⟩ := hrest
        exact ⟨hresult', by rw [hvisits', hvisits, List.append_assoc], hpath'⟩
      · obtain ⟨hresult', hvisits'⟩ := hrest
        exact ⟨hresult', by rw [hvisits', hvisits, List.append_assoc]⟩
      · exact hrest
  · cases e with
    | panicked => exact h
    | error e =>
      obtain ⟨hresult, hvisits⟩ := h
      have hstop : (scan root first).2 ≠ .ok none := by
        rw [hresult]
        nofun
      have hscan := scan_append_of_ne hstop second
      exact ⟨hscan ▸ hresult, hscan ▸ hvisits⟩

theorem prefix_childPath (path name : List UInt8) : path <+: childPath path name := by
  unfold childPath
  split_ifs
  · exact List.prefix_append path name
  · exact List.prefix_append path (slash :: name)

mutual

/-- The search of a subtree follows the scan of its nodes. -/
theorem findGicV2_follows (hnames : WellNamed root) (node : DeviceNode)
    {names : List (List UInt8)} {above : List DeviceNode}
    (hplace : Located root ⟨names, above, node⟩) {s : State}
    (h : absolutePath names <+: s.path.toList) :
    Follows root (absolutePath names) (preorder node names above) s
      ((findGicV2 root node (absolutePath names).length).run s) := by
  match node with
  | ⟨name, compatible, status, reg, ranges, interrupts, texts, children⟩ =>
    have hamong := findGicV2Among_follows hnames children hplace (fun _ hchild => hchild)
      (s := { s with visits := s.visits ++ [(absolutePath names,
        ⟨name, compatible, status, reg, ranges, interrupts, texts, children⟩)] }) h
    rw [findGicV2, preorder]
    show Follows _ _ _ _ (EStateM.run (if isGicV2 _ then _ else _) { s with visits := s.visits ++
      [(s.path.toList.take (absolutePath names).length, _)] })
    rw [take_toList h]
    split
    · next hgic => exact follows_decodeAt (p := ⟨names, above, _⟩) _ hgic h
    · next hgic => exact Follows.cons (length_le h) (Bool.not_eq_true _ ▸ hgic) hamong

/-- The loop over the children that are left. -/
theorem findGicV2Among_follows (hnames : WellNamed root) (children : List DeviceNode) {p : Place}
    (hplace : Located root p) (hchildren : children ⊆ p.node.children) {s : State}
    (h : p.path <+: s.path.toList) :
    Follows root p.path (preorderAmong children p.names (p.node :: p.above)) s
      ((findGicV2Among root children p.path.length).run s) := by
  match children with
  | [] =>
    rw [findGicV2Among, preorderAmong]
    exact ⟨rfl, (List.append_nil _).symm, h⟩
  | child :: rest =>
    have hlocated := hplace.child (hchildren List.mem_cons_self)
    have hne : ∀ name ∈ p.names, name ≠ [] := fun name hname => (hnames p hplace name hname).1
    have hpath : childPath p.path child.name = absolutePath (p.names ++ [child.name]) :=
      childPath_absolutePath hne child.name
    rw [findGicV2Among, preorderAmong, nextLen_eq]
    by_cases hlong : maxFdtPath < (childPath p.path child.name).length
    · rw [if_pos hlong]
      obtain ⟨tail, htail⟩ := preorder_head child (p.names ++ [child.name]) (p.node :: p.above)
      have hscan : scan root (preorder child (p.names ++ [child.name]) (p.node :: p.above) ++
          preorderAmong rest p.names (p.node :: p.above)) = ([], .error .pathTooLong) := by
        rw [hpath] at hlong
        rw [htail, List.cons_append, scan, if_pos]
        exact hlong
      refine ⟨?_, ?_⟩
      · rw [hscan]
      · rw [hscan, List.append_nil]
    · rw [if_neg hlong]
      obtain ⟨buffer, hbuffer, hwrite⟩ := run_writeChild h (not_lt.mp hlong)
      have hbegins : p.path <+: absolutePath (p.names ++ [child.name]) :=
        hpath ▸ prefix_childPath p.path child.name
      rw [hpath] at hbuffer hwrite ⊢
      have hchild := findGicV2_follows hnames child hlocated
        (s := { s with path := buffer }) hbuffer
      have hrest : ∀ s' : State, p.path <+: s'.path.toList → Follows root p.path
          (preorderAmong rest p.names (p.node :: p.above)) s'
          ((findGicV2Among root rest p.path.length).run s') := fun s' h' =>
        findGicV2Among_follows hnames rest hplace
          (fun _ hmem => hchildren (List.mem_cons_of_mem _ hmem)) h'
      show Follows _ _ _ _ (EStateM.run (writeChild p.path.length _ child.name >>= fun _ => _) s)
      rw [EStateM.run_bind, hwrite]
      exact hchild.append hbegins hrest

end

/-! ## Through its own ancestors -/

section Ancestors

variable {ε : Type} {e : BusErrors ε}

/-- An address goes up through the ancestors below the root, the nearest first. -/
def climb (e : BusErrors ε) : List DeviceNode → Nat → Except ε Nat
  | [], _ => .error e.missingParent
  | [_], address => .ok address
  | bus :: up :: above, address => do
      let ranges ← bus.ranges.mapError fun _ => e.missingRanges
      let ranges ← okOr e.missingRanges ranges
      let address ← translateThrough e ranges address
      climb e (up :: above) address

theorem translateFrom_located (hnames : WellNamed root) (hexact : ExactLookup root)
    (h : Located root p) (address : Nat) :
    translateFrom e root p.path address = climb e (p.node :: p.above) address := by
  induction h generalizing address with
  | root => rw [Place.path, absolutePath, translateFrom, if_pos rfl, climb]
  | @child q bus h hchild ih =>
    have hlocated := h.child hchild
    obtain ⟨hne, hslash⟩ := hnames _ hlocated _ (List.mem_append_right _ List.mem_cons_self)
    have hparent : parentPath (absolutePath (q.names ++ [bus.name])) = some q.path :=
      parentPath_absolutePath hne hslash
    have hroot : absolutePath (q.names ++ [bus.name]) ≠ rootPath := by
      intro heq
      rw [heq] at hparent
      cases hparent
    have hbus : busRanges e root (absolutePath (q.names ++ [bus.name])) =
        (bus.ranges.mapError fun _ => e.missingRanges) >>= okOr e.missingRanges := by
      have hfind : root.findNode (absolutePath (q.names ++ [bus.name])) = some bus :=
        hexact _ hlocated
      rw [busRanges, hfind]
      rfl
    rw [Place.path, translateFrom_below hroot, hbus, hparent, climb, bind_assoc]
    exact bind_congr fun found => bind_congr fun ranges => bind_congr fun address => ih address

/-- The buses that the path of a device names are its ancestors. -/
theorem translateAddress_located (hnames : WellNamed root) (hexact : ExactLookup root)
    (h : Located root p) (address : Nat) :
    translateAddress e root p.path address = climb e p.above address := by
  cases h with
  | root => rfl
  | @child q bus h hchild =>
    obtain ⟨hne, hslash⟩ :=
      hnames _ (h.child hchild) _ (List.mem_append_right _ List.mem_cons_self)
    have hparent : parentPath (absolutePath (q.names ++ [bus.name])) = some q.path :=
      parentPath_absolutePath hne hslash
    rw [Place.path, translateAddress, hparent]
    exact translateFrom_located hnames hexact h address

end Ancestors

/-! ## What a scan comes to -/

/-- None of the errors of a translation is this one. -/
structure Avoids {ε : Type} (e : BusErrors ε) (error : ε) : Prop where
  missingParent : e.missingParent ≠ error
  missingRanges : e.missingRanges ≠ error
  addressNotMapped : e.addressNotMapped ≠ error
  addressOverflow : e.addressOverflow ≠ error

section Errors

variable {ε : Type} {e : BusErrors ε} {error : ε} (h : Avoids e error)

include h

theorem scanRanges_ne_error (ranges : List Platform.Range) (address : Nat) :
    scanRanges e ranges address ≠ .error error := by
  induction ranges with
  | nil => nofun
  | cons range rest ih =>
    rw [scanRanges]
    refine bind_ne_error (mapError_ne_error h.addressOverflow _) fun child => ?_
    refine bind_ne_error (mapError_ne_error h.addressOverflow _) fun parent => ?_
    refine bind_ne_error (mapError_ne_error h.addressOverflow _) fun length => ?_
    split
    · exact ih
    · split_ifs
      · exact ih
      · exact map_ne_error (okOr_ne_error h.addressOverflow _) some

theorem climb_ne_error (above : List DeviceNode) (address : Nat) :
    climb e above address ≠ .error error := by
  induction above generalizing address with
  | nil => exact fun herror => h.missingParent (Except.error.inj herror)
  | cons bus above ih =>
    cases above with
    | nil => simp [climb]
    | cons up above =>
      rw [climb]
      refine bind_ne_error (mapError_ne_error h.missingRanges _) fun found => ?_
      refine bind_ne_error (okOr_ne_error h.missingRanges _) fun ranges => ?_
      refine bind_ne_error ?_ ih
      rw [translateThrough]
      split_ifs
      · simp
      · exact bind_ne_error (scanRanges_ne_error h ranges address)
          (okOr_ne_error h.addressNotMapped)

end Errors

theorem gicErrors_avoids : Avoids gicErrors .pathTooLong := ⟨nofun, nofun, nofun, nofun⟩

theorem gicRegion_ne_pathTooLong (hnames : WellNamed root) (hexact : ExactLookup root)
    (h : Located root p) (register : Option Platform.Reg) :
    gicRegion root p.path register ≠ .error .pathTooLong := by
  unfold gicRegion
  refine bind_ne_error (okOr_ne_error (by nofun) _) fun register => ?_
  refine bind_ne_error (mapError_ne_error (by nofun) _) fun address => ?_
  refine bind_ne_error (mapError_ne_error (by nofun) _) fun size => ?_
  refine bind_ne_error ?_ fun address => mapError_ne_error (by nofun) _
  rw [translateGicToCpuAddress, translateAddress_located hnames hexact h]
  exact climb_ne_error gicErrors_avoids _ _

theorem controller_ne_pathTooLong (hnames : WellNamed root) (hexact : ExactLookup root)
    (h : Located root p) : controller root p.node p.path ≠ .error .pathTooLong := by
  have hregion := gicRegion_ne_pathTooLong hnames hexact h
  unfold controller decodeGicV2
  refine bind_ne_error (mapError_ne_error (by nofun) _) fun status => ?_
  refine bind_ne_error (by split_ifs <;> nofun) fun _ => ?_
  refine map_ne_error ?_ some
  refine bind_ne_error (mapError_ne_error (by nofun) _) fun found => ?_
  refine bind_ne_error (okOr_ne_error (by nofun) _) fun registers => ?_
  refine bind_ne_error (hregion _) fun distributor => ?_
  refine bind_ne_error (hregion _) fun cpuInterface => ?_
  refine bind_ne_error (hregion _) fun hypervisorInterface => ?_
  exact bind_ne_error (hregion _) fun virtualCpuInterface => okOr_ne_error (by nofun) _

/-- The nodes that are visited are the first ones in the order. -/
theorem scan_visits (ps : List Place) :
    (scan root ps).1 <+: ps.map fun p => (p.path, p.node) := by
  induction ps with
  | nil => exact List.prefix_rfl
  | cons p rest ih =>
    rw [scan, List.map_cons]
    split_ifs
    · exact List.nil_prefix
    · exact List.prefix_append [_] _
    · exact (List.prefix_cons_inj _).mpr ih

theorem scan_fits (ps : List Place) : ∀ v ∈ (scan root ps).1, v.1.length ≤ maxFdtPath := by
  induction ps with
  | nil => nofun
  | cons p rest ih =>
    rw [scan]
    split_ifs with hlong
    · nofun
    · exact List.forall_mem_singleton.mpr (not_lt.mp hlong)
    · exact List.forall_mem_cons.mpr ⟨not_lt.mp hlong, ih⟩

/-- The first node that is a controller. -/
theorem scan_found {ps : List Place} (h : (scan root ps).2 = .ok (some info)) :
    ∃ before p after, ps = before ++ p :: after ∧ (∀ q ∈ before, isGicV2 q.node = false) ∧
      isGicV2 p.node = true ∧ controller root p.node p.path = .ok (some info) ∧
      (scan root ps).1 = (before ++ [p]).map fun q => (q.path, q.node) := by
  induction ps with
  | nil => cases h
  | cons p rest ih =>
    rw [scan] at h ⊢
    split_ifs at h ⊢ with hlong hgic
    · exact ⟨[], p, rest, rfl, nofun, hgic, h, rfl⟩
    · obtain ⟨before, q, after, rfl, hbefore, hq, hcontroller, hvisits⟩ := ih h
      refine ⟨p :: before, q, after, rfl, ?_, hq, hcontroller, ?_⟩
      · exact List.forall_mem_cons.mpr ⟨Bool.not_eq_true _ ▸ hgic, hbefore⟩
      · rw [hvisits]
        rfl

/-- A too long path is reported exactly if there is one no later than the first controller. -/
theorem scan_tooLong {ps : List Place}
    (hcontroller : ∀ p ∈ ps, controller root p.node p.path ≠ .error .pathTooLong) :
    (scan root ps).2 = .error .pathTooLong ↔
      ∃ before p after, ps = before ++ p :: after ∧ (∀ q ∈ before, isGicV2 q.node = false) ∧
        maxFdtPath < p.path.length := by
  induction ps with
  | nil =>
    refine iff_of_false nofun ?_
    rintro ⟨before, p, after, heq, -⟩
    simp at heq
  | cons p rest ih =>
    have hrest := ih fun q hq => hcontroller q (List.mem_cons_of_mem p hq)
    rw [scan]
    split_ifs with hlong hgic
    · exact iff_of_true rfl ⟨[], p, rest, rfl, nofun, hlong⟩
    · refine iff_of_false (hcontroller p List.mem_cons_self) ?_
      rintro ⟨before, q, after, heq, hbefore, hq⟩
      cases before with
      | nil =>
        cases heq
        exact hlong hq
      | cons first before =>
        cases heq
        exact Bool.false_ne_true ((hbefore p List.mem_cons_self).symm.trans hgic)
    · rw [hrest]
      constructor
      · rintro ⟨before, q, after, rfl, hbefore, hq⟩
        exact ⟨p :: before, q, after, rfl,
          List.forall_mem_cons.mpr ⟨Bool.not_eq_true _ ▸ hgic, hbefore⟩, hq⟩
      · rintro ⟨before, q, after, heq, hbefore, hq⟩
        cases before with
        | nil =>
          cases heq
          exact absurd hq hlong
        | cons first before =>
          cases heq
          exact ⟨before, q, after, rfl, (List.forall_mem_cons.mp hbefore).2, hq⟩

/-! ## The search -/

/-- The region is what the ancestors make of a register entry. -/
def RegionOf (above : List DeviceNode) (register : Platform.Reg) (region : SystemInfo.PhysRegion) :
    Prop :=
  ∃ busAddress, register.address = .ok busAddress ∧ register.size = .ok region.size ∧
    climb gicErrors above busAddress = .ok region.start

/-- What the search of a tree does. -/
structure KeepsPath (root : DeviceNode) : Prop where
  /-- No index is outside of the buffer. -/
  total : ∀ s, searched root ≠ .error .panicked s
  /-- The nodes are visited in depth-first order, and at each of them the bytes of its path in the
  buffer are its absolute path. -/
  visits : (state (searched root)).visits <+: (places root).map fun p => (p.path, p.node)
  /-- A node whose path does not fit is never visited. -/
  fits : ∀ v ∈ (state (searched root)).visits, v.1.length ≤ maxFdtPath
  /-- The regions are those of the first controller, through its own ancestors. -/
  found : ∀ info s, searched root = .ok info s → ∃ before p after,
    places root = before ++ p :: after ∧ (∀ q ∈ before, isGicV2 q.node = false) ∧
    isGicV2 p.node = true ∧ s.visits = (before ++ [p]).map (fun q => (q.path, q.node)) ∧
    ∃ registers rest, p.node.reg = .ok (some (registers ++ rest)) ∧
      List.Forall₂ (RegionOf p.above) registers info.regions
  /-- A path is too long exactly if one is, no later than that of the first controller. -/
  tooLong : (∃ s, searched root = .error (.error .pathTooLong) s) ↔ ∃ before p after,
    places root = before ++ p :: after ∧ (∀ q ∈ before, isGicV2 q.node = false) ∧
    maxFdtPath < p.path.length

/-- The whole search, beginning with the root's path in the buffer. -/
theorem searched_cases (hnames : WellNamed root) :
    (∃ info s, searched root = .ok info s ∧ s.visits = (scan root (places root)).1 ∧
      (scan root (places root)).2 = .ok (some info)) ∨
    ∃ e s, searched root = .error (.error e) s ∧ s.visits = (scan root (places root)).1 ∧
      ((scan root (places root)).2 = .error e ∨
        (scan root (places root)).2 = .ok none ∧ e = .missingController) := by
  have hroom : 0 < maxFdtPath := by decide
  have hset : (setByte 0 slash).run ⟨Vector.replicate maxFdtPath 0, []⟩ =
      .ok () ⟨(Vector.replicate maxFdtPath 0).set 0 slash hroom, []⟩ :=
    run_update (writeAt_of_lt hroom slash)
  have hbegins : absolutePath [] <+:
      ((Vector.replicate maxFdtPath 0).set 0 slash hroom).toList :=
    append_prefix_set List.nil_prefix hroom slash
  have hfollows := findGicV2_follows hnames root .root
    (s := ⟨(Vector.replicate maxFdtPath 0).set 0 slash hroom, []⟩) hbegins
  rw [searched, discoverGicV2, EStateM.run_bind, hset]
  dsimp only
  rw [EStateM.run_bind]
  change Follows root (absolutePath []) (places root) _ ((findGicV2 root root 1).run _) at hfollows
  generalize (findGicV2 root root 1).run _ = r at hfollows ⊢
  rcases r with ⟨found, s⟩ | ⟨e, s⟩
  · obtain ⟨hresult, hvisits, -⟩ := hfollows
    cases found with
    | none => exact Or.inr ⟨.missingController, s, rfl, hvisits, Or.inr ⟨hresult, rfl⟩⟩
    | some info => exact Or.inl ⟨info, s, rfl, hvisits, hresult⟩
  · cases e with
    | panicked => exact hfollows.elim
    | error e => exact Or.inr ⟨e, s, rfl, hfollows.2, Or.inl hfollows.1⟩

theorem decodeGicV2_of_controller {node : DeviceNode}
    (h : controller root node path = .ok (some info)) : decodeGicV2 root node path = .ok info := by
  obtain ⟨status, -, h⟩ := bind_eq_ok.mp h
  obtain ⟨-, -, h⟩ := bind_eq_ok.mp h
  cases hdecode : decodeGicV2 root node path with
  | error e =>
    rw [hdecode] at h
    cases h
  | ok decoded =>
    rw [hdecode] at h
    cases h
    rfl

/-- The regions of a controller, with the buses of its path for its ancestors. -/
theorem regions_of_decoded (hnames : WellNamed root) (hexact : ExactLookup root)
    (h : Located root p) (hdecoded : decodeGicV2 root p.node p.path = .ok info) :
    ∃ registers rest, p.node.reg = .ok (some (registers ++ rest)) ∧
      List.Forall₂ (RegionOf p.above) registers info.regions := by
  obtain ⟨registers, rest, hreg, hwindows⟩ := decodeGicV2_windows hdecoded
  refine ⟨registers, rest, hreg, hwindows.imp ?_⟩
  rintro register region ⟨busAddress, _, haddress, hsize, rfl, hstart, -⟩
  rw [translateGicToCpuAddress, translateAddress_located hnames hexact h] at hstart
  exact ⟨busAddress, haddress, hsize, hstart⟩

/-- Where names are not empty and have no slash in them, and every node is found under its absolute
path, the search never leaves its buffer and has at every node the path of that node. -/
theorem gic_search_keeps_path {root : DeviceNode} (hnames : WellNamed root)
    (hexact : ExactLookup root) : KeepsPath root := by
  have htooLong := scan_tooLong fun p (hp : p ∈ places root) =>
    controller_ne_pathTooLong hnames hexact (mem_places.mp hp)
  rcases searched_cases hnames with ⟨info, s, hrun, hvisits, hscan⟩ | ⟨e, s, hrun, hvisits, hscan⟩
  · refine ⟨?_, ?_, ?_, ?_, ?_⟩
    · rw [hrun]
      nofun
    · rw [hrun]
      exact hvisits ▸ scan_visits _
    · rw [hrun]
      exact hvisits ▸ scan_fits _
    · rw [hrun]
      rintro _ _ ⟨⟩
      obtain ⟨before, p, after, hplaces, hbefore, hgic, hcontroller, hall⟩ := scan_found hscan
      have hlocated : Located root p :=
        mem_places.mp (hplaces ▸ List.mem_append_right _ List.mem_cons_self)
      exact ⟨before, p, after, hplaces, hbefore, hgic, hvisits.trans hall,
        regions_of_decoded hnames hexact hlocated (decodeGicV2_of_controller hcontroller)⟩
    · rw [← htooLong, hscan, hrun]
      exact iff_of_false nofun nofun
  · refine ⟨?_, ?_, ?_, ?_, ?_⟩
    · rw [hrun]
      nofun
    · rw [hrun]
      exact hvisits ▸ scan_visits _
    · rw [hrun]
      exact hvisits ▸ scan_fits _
    · rw [hrun]
      nofun
    · rw [← htooLong, hrun]
      rcases hscan with hscan | ⟨hscan, rfl⟩
      · rw [hscan]
        constructor
        · rintro ⟨_, ⟨⟩⟩
          rfl
        · rintro ⟨⟩
          exact ⟨s, rfl⟩
      · rw [hscan]
        refine iff_of_false ?_ nofun
        rintro ⟨_, ⟨⟩⟩

/-- On the board the search visits the root, its bus and the controller, and returns the regions of
that. -/
theorem gic_search_keeps_path_board : KeepsPath (gicBoard 0x100000) ∧
    ∃ info s, searched (gicBoard 0x100000) = .ok info s ∧
      s.visits.map Prod.fst = [rootPath, ascii "/soc".toList, boardGicPath] := by
  have hnames : WellNamed (gicBoard 0x100000) := fun p hp =>
    (show ∀ p ∈ places (gicBoard 0x100000), ∀ name ∈ p.names, name ≠ [] ∧ slash ∉ name by
      decide +kernel) p (mem_places.mpr hp)
  have hexact : ExactLookup (gicBoard 0x100000) := fun p hp =>
    (show ∀ p ∈ places (gicBoard 0x100000), (gicBoard 0x100000).findNode p.path = some p.node from
      List.forall_mem_cons.mpr ⟨rfl, List.forall_mem_cons.mpr ⟨rfl,
        List.forall_mem_singleton.mpr rfl⟩⟩) p (mem_places.mpr hp)
  have hfound : ((scan (gicBoard 0x100000) (places (gicBoard 0x100000))).2.toOption.bind
      id).isSome = true := by decide +kernel
  have hpaths : (scan (gicBoard 0x100000) (places (gicBoard 0x100000))).1.map Prod.fst =
      [rootPath, ascii "/soc".toList, boardGicPath] := by decide +kernel
  refine ⟨gic_search_keeps_path hnames hexact, ?_⟩
  rcases searched_cases hnames with ⟨info, s, hrun, hvisits, -⟩ | ⟨e, s, -, -, hscan | ⟨hscan, -⟩⟩
  · exact ⟨info, s, hrun, hvisits ▸ hpaths⟩
  · rw [hscan] at hfound
    cases hfound
  · rw [hscan] at hfound
    cases hfound

/-- A valid name of 256 bytes: "a@" and a unit address of 254 digits "f". -/
def longName : List UInt8 := 97 :: 64 :: List.replicate 254 102

/-- A controller of that name directly below the root. -/
def longBoard : DeviceNode := plainNode [] [{ boardGic with name := longName }]

set_option maxRecDepth 4000 in
/-- Its path is too long, and the search says so. Nothing but the root comes before it, and nothing
but the root has been visited. -/
theorem controller_path_too_long : WellNamed longBoard ∧ ExactLookup longBoard ∧
    (∃ s, searched longBoard = .error (.error .pathTooLong) s ∧
      s.visits = [(rootPath, longBoard)]) ∧
    ∃ p q, places longBoard = [p, q] ∧ p.path = rootPath ∧ isGicV2 q.node = true := by
  have hplaces : places longBoard =
      [⟨[], [], longBoard⟩, ⟨[longName], [longBoard], { boardGic with name := longName }⟩] := rfl
  have hnames : WellNamed longBoard := fun p hp =>
    (show ∀ p ∈ places longBoard, ∀ name ∈ p.names, name ≠ [] ∧ slash ∉ name by
      decide +kernel) p (mem_places.mpr hp)
  have hexact : ExactLookup longBoard := fun p hp =>
    (show ∀ p ∈ places longBoard, longBoard.findNode p.path = some p.node from
      List.forall_mem_cons.mpr ⟨rfl, List.forall_mem_singleton.mpr rfl⟩) p (mem_places.mpr hp)
  have hscan : scan longBoard (places longBoard) =
      ([(rootPath, longBoard)], .error .pathTooLong) := by
    rw [hplaces, scan, if_neg (by decide), if_neg (by decide +kernel), scan,
      if_pos (by decide +kernel)]
    rfl
  refine ⟨hnames, hexact, ?_, ⟨_, _, hplaces, rfl, by decide +kernel⟩⟩
  rcases searched_cases hnames with ⟨info, s, -, -, hresult⟩ |
    ⟨e, s, hrun, hvisits, hresult | ⟨hresult, -⟩⟩
  · rw [hscan] at hresult
    cases hresult
  · rw [hscan] at hresult hvisits
    cases hresult
    exact ⟨s, hrun, hvisits⟩
  · rw [hscan] at hresult
    cases hresult

/-! ## The search with paths of its own -/

mutual

theorem findGicV2_eq_scan (hnames : WellNamed root) (node : DeviceNode)
    {names : List (List UInt8)} {above : List DeviceNode}
    (hplace : Located root ⟨names, above, node⟩) (h : (absolutePath names).length ≤ maxFdtPath) :
    Fdt.findGicV2 root node (absolutePath names) = (scan root (preorder node names above)).2 := by
  match node with
  | ⟨name, compatible, status, reg, ranges, interrupts, texts, children⟩ =>
    have hamong := findGicV2Among_eq_scan hnames children hplace fun _ hchild => hchild
    rw [Fdt.findGicV2, preorder, scan, Place.path, if_neg (not_lt.mpr h)]
    split
    · rfl
    · exact hamong

theorem findGicV2Among_eq_scan (hnames : WellNamed root) (children : List DeviceNode) {p : Place}
    (hplace : Located root p) (hchildren : children ⊆ p.node.children) :
    Fdt.findGicV2Among root children p.path =
      (scan root (preorderAmong children p.names (p.node :: p.above))).2 := by
  match children with
  | [] => rw [Fdt.findGicV2Among, preorderAmong, scan]
  | child :: rest =>
    have hpath := childPath_absolutePath (fun _ hname => (hnames p hplace _ hname).1) child.name
    have hrest := findGicV2Among_eq_scan hnames rest hplace (List.subset_of_cons_subset hchildren)
    rw [Fdt.findGicV2Among, preorderAmong, Place.path, hpath]
    split
    · next hlong =>
      obtain ⟨tail, htail⟩ := preorder_head child (p.names ++ [child.name]) (p.node :: p.above)
      rw [htail, List.cons_append, scan, if_pos]
      exact hlong
    · next hlong =>
      rw [findGicV2_eq_scan hnames child (hplace.child (hchildren List.mem_cons_self))
        (not_lt.mp hlong)]
      rcases hfirst : (scan root (preorder child (p.names ++ [child.name])
        (p.node :: p.above))).2 with e | _ | info
      · rw [scan_append_of_ne (hfirst ▸ nofun), hfirst]
        rfl
      · rw [scan_append_of_none hfirst]
        exact hrest
      · rw [scan_append_of_ne (hfirst ▸ nofun), hfirst]
        rfl

end

/-- The one buffer of the search does the work of a path for each node. -/
theorem gic_search_agrees {root : DeviceNode} (hnames : WellNamed root) :
    outcome (searched root) = (Fdt.discoverGicV2 root).mapError .error := by
  have hroot := findGicV2_eq_scan hnames root .root (by decide)
  change Fdt.findGicV2 root root rootPath = (scan root (places root)).2 at hroot
  rw [Fdt.discoverGicV2, hroot]
  rcases searched_cases hnames with ⟨info, s, hrun, -, hscan⟩ |
    ⟨e, s, hrun, -, hscan | ⟨hscan, rfl⟩⟩ <;> rw [hrun, hscan] <;> rfl

theorem gic_search_agrees_board : outcome (searched (gicBoard 0x100000)) =
    (Fdt.discoverGicV2 (gicBoard 0x100000)).mapError .error :=
  gic_search_agrees fun p hp =>
    (show ∀ p ∈ places (gicBoard 0x100000), ∀ name ∈ p.names, name ≠ [] ∧ slash ∉ name by
      decide +kernel) p (mem_places.mpr hp)

end Tvisor.Fdt.Search
