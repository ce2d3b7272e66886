/-
# Tvisor.Fdt.UbootArgs -- the addresses that U-Boot hands over in its arguments

U-Boot starts the hypervisor with `argc` and `argv`. `fdt_address_from_uboot_args` looks through all
arguments for the one `fdt=<hex-address>`, `image_from_uboot_args` for the one
`image=<hex-address>,<hex-byte-size>`. Both walk the table of pointers and the strings it points to
byte by byte, so the model reads a memory and keeps what it has read.

The two functions are one search with different words: `Tagged` holds the words, and each function
is the search at its own. `uboot_handoff_exact` says for every memory when each of them succeeds and
with what, and that no byte after the end of an argument is read.
-/
import Mathlib.Data.List.Forall2
import Tvisor.Lib.Parsing
import Tvisor.Lib.Reads

namespace Tvisor.Fdt

open Fallible (Stop bind_eq_ok mapError_eq_ok)
open Parsing Reading Reading.Reads Words

/-! ## Constants and errors -/

/-- The bytes of a byte-string literal. -/
def ascii (text : List Char) : List UInt8 := text.map fun c => c.toUInt8

def maxUbootArgs : Nat := 16

def maxUbootArgLen : Nat := 64

def fdtArgPrefix : List UInt8 := ascii ['f', 'd', 't', '=']

def imageArgPrefix : List UInt8 := ascii ['i', 'm', 'a', 'g', 'e', '=']

inductive FdtArgError where
  | invalidArgCount
  | nullArgv
  | nullArgument
  | argumentTooLong
  | missingAddress
  | duplicateAddress
  | invalidAddress
  | addressOverflow
  | zeroAddress
  deriving DecidableEq, Repr

/-- A separately loaded Linux Image supplied by U-Boot. -/
structure UbootImage where
  address : Nat
  size : Nat
  deriving DecidableEq, Repr

inductive ImageArgError where
  | invalidArgCount
  | nullArgv
  | nullArgument
  | argumentTooLong
  | missingImage
  | duplicateImage
  | invalidAddress
  | invalidSize
  | addressOverflow
  | zeroAddress
  | zeroSize
  deriving DecidableEq, Repr

/-! ## Hexadecimal numbers -/

/-- The digit that a byte stands for. -/
def hexDigit (byte : UInt8) : Option Nat :=
  if '0'.toUInt8 ≤ byte ∧ byte ≤ '9'.toUInt8 then some (byte - '0'.toUInt8).toNat
  else if 'a'.toUInt8 ≤ byte ∧ byte ≤ 'f'.toUInt8 then some ((byte - 'a'.toUInt8).toNat + 10)
  else if 'A'.toUInt8 ≤ byte ∧ byte ≤ 'F'.toUInt8 then some ((byte - 'A'.toUInt8).toNat + 10)
  else none

/-- One round of the accumulation. -/
def hexStep (address : Nat) (byte : UInt8) : Except FdtArgError Nat :=
  match hexDigit byte with
  | none => .error .invalidAddress
  | some digit =>
    match checkedDigit 16 address digit with
    | none => .error .addressOverflow
    | some address => .ok address

/-- The text without the marker in front of a hexadecimal number. -/
def unmarked (value : List UInt8) : List UInt8 :=
  ((stripTag (ascii ['0', 'x']) value).or (stripTag (ascii ['0', 'X']) value)).getD value

def parseHexAddress (value : List UInt8) : Except FdtArgError Nat :=
  if (unmarked value).isEmpty then .error .invalidAddress
  else (unmarked value).foldlM hexStep 0

def mapImageAddressError : FdtArgError → ImageArgError
  | .invalidAddress => .invalidAddress
  | .addressOverflow => .addressOverflow
  | _ => .invalidAddress

def mapImageSizeError : FdtArgError → ImageArgError
  | .invalidAddress => .invalidSize
  | .addressOverflow => .addressOverflow
  | _ => .invalidSize

/-- The two parts of the value of an `image=` argument. -/
def parseImageParts (address size : List UInt8) : Except ImageArgError UbootImage := do
  let address ← (parseHexAddress address).mapError mapImageAddressError
  let size ← (parseHexAddress size).mapError mapImageSizeError
  if address = 0 then .error .zeroAddress
  else if size = 0 then .error .zeroSize
  else .ok ⟨address, size⟩

/-- The value of an `image=` argument, cut at its first comma. -/
def parseImage (value : List UInt8) : Except ImageArgError UbootImage :=
  match value.idxOf? ','.toUInt8 with
  | none => .error .invalidSize
  | some separator => parseImageParts (value.take separator) (value.drop (separator + 1))

/-! ## The arguments in memory -/

/-- What the code dereferences: a pointer of the table, or a byte of a string. -/
inductive Cell where
  | pointer (address : Nat)
  | byte (address : Nat)
  deriving DecidableEq

abbrev Content : Cell → Type
  | .pointer _ => Nat
  | .byte _ => UInt8

/-- The memory at the handoff. A null pointer is zero. -/
abbrev Memory := ∀ cell, Content cell

variable {ε α : Type}

def readPointer (address : Nat) : Reads Content ε Nat :=
  @Reads.read Cell Content ε (.pointer address)

def readByte (address : Nat) : Reads Content ε UInt8 := @Reads.read Cell Content ε (.byte address)

/-- The bytes of the slice that starts at the pointer, as the parsers below find them. -/
def slice (pointer length : Nat) : Reads Content FdtArgError (List UInt8) :=
  (List.range length).foldlM (fun bytes index => do
    return bytes ++ [← readByte (pointer + index)]) []

/-- The loop of `bounded_c_string` over the lengths that are left. -/
def scanString (pointer : Nat) : List Nat → Reads Content FdtArgError (List UInt8)
  | [] => fail .argumentTooLong
  | length :: rest => do
    let byte ← readByte (pointer + length)
    if byte = 0 then slice pointer length else scanString pointer rest

def boundedCString (pointer : Nat) : Reads Content FdtArgError (List UInt8) :=
  scanString pointer (List.range maxUbootArgLen)

/-- The words in which the two functions differ. -/
structure Tagged (ε α : Type) where
  tag : List UInt8
  invalidArgCount : ε
  nullArgv : ε
  nullArgument : ε
  duplicate : ε
  /-- What becomes of an error of `bounded_c_string`. -/
  stringError : FdtArgError → ε
  parse : List UInt8 → Except ε α

/-- `usize::try_from(argc)` and the checks before the loop. -/
def argumentCount (t : Tagged ε α) (argc : Int) (argv : Nat) : Except ε Nat :=
  if argc < 0 then .error t.invalidArgCount
  else if argc.toNat = 0 ∨ argc.toNat > maxUbootArgs then .error t.invalidArgCount
  else if argv = 0 then .error t.nullArgv
  else .ok argc.toNat

/-- The argument at an index. The table has one pointer, of eight bytes, for each argument. -/
def argumentAt (t : Tagged ε α) (argv index : Nat) : Reads Content ε (List UInt8) := do
  let argument ← readPointer (argv + 8 * index)
  if argument = 0 then fail t.nullArgument else (boundedCString argument).mapError t.stringError

/-- One round of the loop over the arguments. -/
def considerArgument (t : Tagged ε α) (argv : Nat) (found : Option α) (index : Nat) :
    Reads Content ε (Option α) := do
  let argument ← argumentAt t argv index
  match stripTag t.tag argument with
  | none => return found
  | some value =>
    if found.isSome then fail t.duplicate
    else lift do return some (← t.parse value)

def findTagged (t : Tagged ε α) (argc : Int) (argv : Nat) : Reads Content ε (Option α) := do
  let argc ← lift (argumentCount t argc argv)
  (List.range argc).foldlM (considerArgument t argv) none

def fdtArgument : Tagged FdtArgError Nat where
  tag := fdtArgPrefix
  invalidArgCount := .invalidArgCount
  nullArgv := .nullArgv
  nullArgument := .nullArgument
  duplicate := .duplicateAddress
  stringError := id
  parse := parseHexAddress

def imageArgument : Tagged (Stop ImageArgError) UbootImage where
  tag := imageArgPrefix
  invalidArgCount := .error .invalidArgCount
  nullArgv := .error .nullArgv
  nullArgument := .error .nullArgument
  duplicate := .error .duplicateImage
  stringError
    | .argumentTooLong => .error .argumentTooLong
    | _ => .panicked -- `unreachable!`
  parse value := (parseImage value).mapError .error

def fdtAddressFromUbootArgs (argc : Int) (argv : Nat) : Reads Content FdtArgError Nat := do
  match ← findTagged fdtArgument argc argv with
  | none => fail .missingAddress
  | some address => if address = 0 then fail .zeroAddress else return address

def imageFromUbootArgs (argc : Int) (argv : Nat) :
    Reads Content (Stop ImageArgError) UbootImage := do
  match ← findTagged imageArgument argc argv with
  | none => fail (.error .missingImage)
  | some image => return image

/-! ## What the arguments mean -/

/-- A byte is a hexadecimal digit, of either case. -/
def IsHexDigit (byte : UInt8) (digit : Nat) : Prop :=
  (digit < 10 ∧ byte.toNat = '0'.toNat + digit) ∨
    (10 ≤ digit ∧ digit < 16 ∧
      (byte.toNat + 10 = 'a'.toNat + digit ∨ byte.toNat + 10 = 'A'.toNat + digit))

/-- An optional `0x` or `0X` and one or more hexadecimal digits that denote a word. -/
def HexNumber (text : List UInt8) (n : Nat) : Prop :=
  ∃ digits values, (text = digits ∨ text = ascii ['0', 'x'] ++ digits ∨
      text = ascii ['0', 'X'] ++ digits) ∧
    digits ≠ [] ∧ List.Forall₂ IsHexDigit digits values ∧ n = numeral 16 values ∧ n < wordBound

/-- The pointer of an argument. -/
def argument (m : Memory) (argv index : Nat) : Nat := m (.pointer (argv + 8 * index))

/-- The `length` bytes from the pointer on. -/
def bytesAt (m : Memory) (pointer length : Nat) : List UInt8 :=
  (List.range length).map fun index => m (.byte (pointer + index))

/-- The pointer identifies this NUL-terminated string. -/
structure IsCString (m : Memory) (pointer : Nat) (text : List UInt8) : Prop where
  bytes : text = bytesAt m pointer text.length
  nonzero : 0 ∉ text
  terminated : m (.byte (pointer + text.length)) = (0 : UInt8)

/-- What the caller of the two functions promises. -/
structure PointerContract (m : Memory) (argc : Int) (argv : Nat) : Prop where
  table : 0 < argc → argv ≠ 0
  strings : ∀ i < argc.toNat, argument m argv i ≠ 0 → ∃ text, IsCString m (argument m argv i) text

/-- The arguments are in order, and exactly one of them has the tag, with a value that `reads`. -/
structure Handoff (m : Memory) (argc : Int) (argv : Nat) (tag : List UInt8)
    (reads : List UInt8 → Prop) : Prop where
  count : 1 ≤ argc ∧ argc ≤ maxUbootArgs
  arguments : ∀ i < argc.toNat, argument m argv i ≠ 0 ∧
    ∃ text, IsCString m (argument m argv i) text ∧ text.length < maxUbootArgLen
  tagged : ∃ i < argc.toNat,
    (∃ value, IsCString m (argument m argv i) (tag ++ value) ∧ reads value) ∧
      ∀ j < argc.toNat, ∀ text, IsCString m (argument m argv j) text → tag <+: text → j = i

/-- The location is a byte of the string at the pointer, its NUL at the latest. -/
def InString (m : Memory) (pointer : Nat) (cell : Cell) : Prop :=
  ∃ k, cell = .byte (pointer + k) ∧ ∀ j < k, m (.byte (pointer + j)) ≠ (0 : UInt8)

/-- The location is a pointer of the table or in the string of an argument. -/
def InArguments (m : Memory) (argc : Int) (argv : Nat) (cell : Cell) : Prop :=
  ∃ i < argc.toNat, cell = .pointer (argv + 8 * i) ∨
    (argument m argv i ≠ 0 ∧ InString m (argument m argv i) cell)

/-! ## Hexadecimal numbers, exactly -/

variable {address n : Nat} {digits text value : List UInt8} {values : List Nat}

theorem hexDigit_eq_some {byte : UInt8} {digit : Nat} :
    hexDigit byte = some digit ↔ IsHexDigit byte digit := by
  have h0 : '0'.toUInt8.toNat = 48 := rfl
  have h9 : '9'.toUInt8.toNat = 57 := rfl
  have ha : 'a'.toUInt8.toNat = 97 := rfl
  have hf : 'f'.toUInt8.toNat = 102 := rfl
  have hA : 'A'.toUInt8.toNat = 65 := rfl
  have hF : 'F'.toUInt8.toNat = 70 := rfl
  have hc0 : '0'.toNat = 48 := rfl
  have hca : 'a'.toNat = 97 := rfl
  have hcA : 'A'.toNat = 65 := rfl
  have hlt := byte.toNat_lt
  simp only [hexDigit, IsHexDigit, UInt8.le_iff_toNat_le, UInt8.toNat_sub, h0, h9, ha, hf, hA, hF,
    hc0, hca, hcA]
  split_ifs
  · rw [Option.some_inj]
    omega
  · rw [Option.some_inj]
    omega
  · rw [Option.some_inj]
    omega
  · rw [false_iff]
    omega

theorem hexStep_eq_ok {byte : UInt8} : hexStep address byte = .ok n ↔
    ∃ digit, hexDigit byte = some digit ∧ checkedDigit 16 address digit = some n := by
  unfold hexStep
  rcases hexDigit byte with _ | digit
  · simp
  · rcases h : checkedDigit 16 address digit with _ | n'
    · simp [h]
    · simp [h]

theorem map_hexDigit_iff :
    digits.map hexDigit = values.map some ↔ List.Forall₂ IsHexDigit digits values := by
  rw [← List.forall₂_eq_eq_eq, List.forall₂_map_left_iff, List.forall₂_map_right_iff]
  simp only [hexDigit_eq_some]

theorem not_isHexDigit_marker {digit : Nat} :
    ¬ IsHexDigit 'x'.toUInt8 digit ∧ ¬ IsHexDigit 'X'.toUInt8 digit := by
  rw [← hexDigit_eq_some, ← hexDigit_eq_some]
  exact ⟨nofun, nofun⟩

/-- Digits alone never look like a marker. -/
theorem unmarked_digits (h : List.Forall₂ IsHexDigit digits values) : unmarked digits = digits := by
  have hno : ∀ c, (∀ digit, ¬ IsHexDigit c digit) → stripTag ['0'.toUInt8, c] digits = none := by
    intro c hc
    rw [stripTag_eq_none]
    rintro ⟨rest, rfl⟩
    rw [List.cons_append, List.cons_append, List.forall₂_cons_left_iff] at h
    obtain ⟨-, tail, -, hrest, -⟩ := h
    obtain ⟨digit, -, hdigit, -⟩ := List.forall₂_cons_left_iff.mp hrest
    exact hc digit hdigit
  have hlower := hno 'x'.toUInt8 fun _ => not_isHexDigit_marker.1
  have hupper := hno 'X'.toUInt8 fun _ => not_isHexDigit_marker.2
  rw [unmarked, ascii, ascii, List.map_cons, List.map_cons, List.map_nil, hlower, List.map_cons,
    List.map_cons, List.map_nil, hupper]
  rfl

theorem unmarked_eq (h : List.Forall₂ IsHexDigit digits values) : unmarked text = digits ↔
      (text = digits ∨ text = ascii ['0', 'x'] ++ digits ∨ text = ascii ['0', 'X'] ++ digits) := by
  constructor
  · intro htext
    rw [unmarked] at htext
    rcases hlower : stripTag (ascii ['0', 'x']) text with _ | rest
    · rcases hupper : stripTag (ascii ['0', 'X']) text with _ | rest
      · rw [hlower, hupper] at htext
        exact .inl htext
      · rw [hlower, hupper] at htext
        cases htext
        exact .inr (.inr (stripTag_eq_some.mp hupper))
    · rw [hlower] at htext
      cases htext
      exact .inr (.inl (stripTag_eq_some.mp hlower))
  · rintro (rfl | rfl | rfl)
    · exact unmarked_digits h
    · rw [unmarked, stripTag_eq_some.mpr rfl]
      rfl
    · have hlower : stripTag (ascii ['0', 'x']) (ascii ['0', 'X'] ++ digits) = none := rfl
      rw [unmarked, hlower, stripTag_eq_some.mpr rfl]
      rfl

theorem parseHexAddress_eq_ok :
    parseHexAddress value = .ok n ↔ HexNumber value n := by
  have hfold := foldlM_checkedDigit (by decide) (fun acc byte n => @hexStep_eq_ok acc n byte)
    (unmarked value) n
  rw [parseHexAddress]
  constructor
  · intro h
    split at h
    · cases h
    · rename_i hne
      obtain ⟨values, hvalues, hn, hlt⟩ := hfold.mp h
      have hdigits := map_hexDigit_iff.mp hvalues
      exact ⟨unmarked value, values, (unmarked_eq hdigits).mp rfl,
        fun hnil => hne (List.isEmpty_iff.mpr hnil), hdigits, hn, hlt⟩
  · rintro ⟨digits, values, htext, hne, hdigits, hn, hlt⟩
    have hunmarked := (unmarked_eq hdigits).mpr htext
    rw [if_neg (by rwa [hunmarked, List.isEmpty_iff])]
    exact hfold.mpr ⟨values, by rw [hunmarked]; exact map_hexDigit_iff.mpr hdigits, hn, hlt⟩

theorem HexNumber.comma_notMem (h : HexNumber text n) :
    ','.toUInt8 ∉ text := by
  obtain ⟨digits, values, htext, -, hdigits, -⟩ := h
  have hmem : ','.toUInt8 ∉ digits := by
    intro hmem
    have hsome := List.mem_map_of_mem (f := hexDigit) hmem
    rw [map_hexDigit_iff.mpr hdigits] at hsome
    obtain ⟨digit, -, hdigit⟩ := List.mem_map.mp hsome
    cases hdigit
  rcases htext with rfl | rfl | rfl
  · exact hmem
  · rw [List.mem_append, not_or]
    exact ⟨by decide, hmem⟩
  · rw [List.mem_append, not_or]
    exact ⟨by decide, hmem⟩

/-- Two numbers that are not zero, with one comma between them. -/
def ImageNumbers (value : List UInt8) (image : UbootImage) : Prop :=
  ∃ address size, value = address ++ ','.toUInt8 :: size ∧ HexNumber address image.address ∧
    HexNumber size image.size ∧ 0 < image.address ∧ 0 < image.size

theorem idxOf?_comma {separator : Nat} (h : value.idxOf? ','.toUInt8 = some separator) :
    value = value.take separator ++ ','.toUInt8 :: value.drop (separator + 1) := by
  obtain ⟨hlt, hget, -⟩ := List.idxOf?_eq_some_iff.mp h
  rw [← hget, ← List.drop_eq_getElem_cons hlt, List.take_append_drop]

theorem idxOf?_comma_append {address : List UInt8} (h : ','.toUInt8 ∉ address)
    (size : List UInt8) :
    (address ++ ','.toUInt8 :: size).idxOf? ','.toUInt8 = some address.length := by
  refine List.idxOf?_eq_some_iff.mpr ⟨by simp, by simp, fun j hj => ?_⟩
  rw [List.getElem_append_left hj]
  exact fun heq => h (heq ▸ List.getElem_mem hj)

theorem parseImageParts_eq_ok {address size : List UInt8} {image : UbootImage} :
    parseImageParts address size = .ok image ↔ HexNumber address image.address ∧
      HexNumber size image.size ∧ 0 < image.address ∧ 0 < image.size := by
  rw [parseImageParts, bind_eq_ok]
  constructor
  · rintro ⟨a, ha, h⟩
    obtain ⟨s, hs, h⟩ := bind_eq_ok.mp h
    rw [mapError_eq_ok, parseHexAddress_eq_ok] at ha hs
    split_ifs at h with haddress hsize
    cases h
    exact ⟨ha, hs, Nat.pos_of_ne_zero haddress, Nat.pos_of_ne_zero hsize⟩
  · rintro ⟨ha, hs, ha0, hs0⟩
    refine ⟨image.address, mapError_eq_ok.mpr (parseHexAddress_eq_ok.mpr ha),
      bind_eq_ok.mpr ⟨image.size,
        mapError_eq_ok.mpr (parseHexAddress_eq_ok.mpr hs), ?_⟩⟩
    rw [if_neg (by omega), if_neg (by omega)]

/-- Only a value with its first comma between two numbers is read. -/
theorem parseImage_eq_ok {image : UbootImage} :
    parseImage value = .ok image ↔ ImageNumbers value image := by
  unfold parseImage
  constructor
  · intro h
    split at h
    · cases h
    · rename_i hcomma
      exact ⟨_, _, idxOf?_comma hcomma, parseImageParts_eq_ok.mp h⟩
  · rintro ⟨address, size, rfl, hparts⟩
    rw [idxOf?_comma_append hparts.1.comma_notMem]
    have htake : (address ++ ','.toUInt8 :: size).take address.length = address := by simp
    have hdrop : (address ++ ','.toUInt8 :: size).drop (address.length + 1) = size := by simp
    show parseImageParts (List.take address.length _) (List.drop (address.length + 1) _) = _
    rw [htake, hdrop]
    exact parseImageParts_eq_ok.mpr hparts

/-! ## Strings, exactly -/

variable {m : Memory} {argc : Int} {argv pointer : Nat}

theorem IsCString.unique {text' : List UInt8} (h : IsCString m pointer text)
    (h' : IsCString m pointer text') : text = text' := by
  -- A shorter string would end where the longer one has a byte that is not zero.
  have hle : ∀ {text text' : List UInt8}, IsCString m pointer text → IsCString m pointer text' →
      text.length ≤ text'.length := by
    intro text text' h h'
    by_contra hlt
    apply h.nonzero
    rw [h.bytes, ← h'.terminated]
    exact List.mem_map_of_mem (List.mem_range.mpr (by omega))
  rw [h.bytes, h'.bytes, le_antisymm (hle h h') (hle h' h)]

/-- The end of the string, if one of the lengths is it. -/
def stringAmong (m : Memory) (pointer : Nat) (lengths : List Nat) :
    Except FdtArgError (List UInt8) :=
  match lengths.find? fun length => m (.byte (pointer + length)) = (0 : UInt8) with
  | none => .error .argumentTooLong
  | some length => .ok (bytesAt m pointer length)

theorem stringAmong_eq_ok :
    stringAmong m pointer (List.range maxUbootArgLen) = .ok text ↔
      IsCString m pointer text ∧ text.length < maxUbootArgLen := by
  have hlen : ∀ n, (bytesAt m pointer n).length = n := by simp [bytesAt]
  unfold stringAmong
  constructor
  · intro h
    split at h
    · cases h
    · rename_i length hfind
      cases h
      obtain ⟨hzero, hlt, hbefore⟩ := List.find?_range_eq_some.mp hfind
      refine ⟨⟨by rw [hlen], ?_, ?_⟩, ?_⟩
      · intro hmem
        obtain ⟨j, hj, hj0⟩ := List.mem_map.mp hmem
        have := hbefore j (List.mem_range.mp hj)
        simp_all
      · rw [hlen]
        simpa using hzero
      · rw [hlen]
        exact List.mem_range.mp hlt
  · rintro ⟨htext, hlt⟩
    have hfind : (List.range maxUbootArgLen).find?
        (fun length => m (.byte (pointer + length)) = (0 : UInt8)) = some text.length := by
      refine List.find?_range_eq_some.mpr ⟨by simpa using htext.terminated,
        List.mem_range.mpr hlt, fun j hj => ?_⟩
      have hne : m (.byte (pointer + j)) ≠ (0 : UInt8) := by
        intro hzero
        apply htext.nonzero
        rw [htext.bytes, ← hzero]
        exact List.mem_map_of_mem (List.mem_range.mpr hj)
      simpa using hne
    rw [hfind]
    exact congrArg Except.ok htext.bytes.symm

/-! ## What is read -/

theorem yields_readByte {may : Cell → Prop} (h : may (.byte address)) :
    Yields m may (readByte address : Reads Content ε UInt8) (.ok (m (.byte address))) :=
  Yields.read h

theorem yields_readPointer {may : Cell → Prop} (h : may (.pointer address)) :
    Yields m may (readPointer address : Reads Content ε Nat) (.ok (m (.pointer address))) :=
  Yields.read h

theorem foldlM_append_eq_map (f : Nat → UInt8) (length : Nat) :
    (List.range length).foldlM (fun bytes index => (.ok (bytes ++ [f index]) :
      Except FdtArgError (List UInt8))) [] = .ok ((List.range length).map f) := by
  induction length with
  | zero => rfl
  | succ length ih =>
    rw [List.range_succ, List.foldlM_append, ih, List.map_append]
    rfl

/-- The slice before the NUL is read again, and nothing else. -/
theorem yields_slice {length : Nat} (h : ∀ j < length, m (.byte (pointer + j)) ≠ (0 : UInt8)) :
    Yields m (InString m pointer) (slice pointer length) (.ok (bytesAt m pointer length)) := by
  rw [bytesAt, ← foldlM_append_eq_map]
  refine Yields.foldlM (fun bytes index hindex => ?_) []
  have hlt := List.mem_range.mp hindex
  have hbyte : InString m pointer (.byte (pointer + index)) :=
    ⟨index, rfl, fun j hj => h j (by omega)⟩
  exact (yields_readByte hbyte).bind_ok (.pure _)

/-- The loop over the lengths from `k` on, with no NUL before `k`. -/
theorem yields_scanString {k : Nat} (n : Nat)
    (h : ∀ j < k, m (.byte (pointer + j)) ≠ (0 : UInt8)) :
    Yields m (InString m pointer) (scanString pointer (List.range' k n))
      (stringAmong m pointer (List.range' k n)) := by
  induction n generalizing k with
  | zero => exact .fail _
  | succ n ih =>
    rw [List.range'_succ]
    have hread : InString m pointer (.byte (pointer + k)) := ⟨k, rfl, h⟩
    refine (yields_readByte hread).bind_ok ?_
    by_cases hzero : m (.byte (pointer + k)) = (0 : UInt8)
    · rw [if_pos hzero, stringAmong, List.find?_cons_of_pos (by simpa using hzero)]
      exact yields_slice h
    · rw [if_neg hzero, stringAmong, List.find?_cons_of_neg (by simpa using hzero)]
      refine ih fun j hj => ?_
      rcases Nat.lt_succ_iff_lt_or_eq.mp hj with hj | rfl
      · exact h j hj
      · exact hzero

theorem yields_boundedCString : Yields m (InString m pointer) (boundedCString pointer)
    (stringAmong m pointer (List.range maxUbootArgLen)) := by
  rw [boundedCString, List.range_eq_range']
  exact yields_scanString maxUbootArgLen nofun

/-! ## The search, exactly -/

variable {index : Nat}

section Search

variable (t : Tagged ε α)

/-- The text of the argument at an index. -/
def textAt (m : Memory) (argv index : Nat) : Except ε (List UInt8) :=
  if argument m argv index = 0 then .error t.nullArgument
  else (stringAmong m (argument m argv index) (List.range maxUbootArgLen)).mapError t.stringError

/-- The value of the argument at an index, if it has the tag. -/
def fieldAt (m : Memory) (argv index : Nat) : Except ε (Option (List UInt8)) := do
  return stripTag t.tag (← textAt t m argv index)

theorem textAt_eq_ok : textAt t m argv index = .ok text ↔
    argument m argv index ≠ 0 ∧ IsCString m (argument m argv index) text ∧
      text.length < maxUbootArgLen := by
  unfold textAt
  split
  · rename_i hnull
    exact ⟨nofun, fun h => absurd hnull h.1⟩
  · rename_i hne
    rw [mapError_eq_ok, stringAmong_eq_ok]
    exact ⟨fun h => ⟨hne, h⟩, And.right⟩

theorem fieldAt_eq_ok {value : Option (List UInt8)} :
    fieldAt t m argv index = .ok value ↔ ∃ text, argument m argv index ≠ 0 ∧
      IsCString m (argument m argv index) text ∧ text.length < maxUbootArgLen ∧
        stripTag t.tag text = value := by
  rw [fieldAt, bind_eq_ok]
  constructor
  · rintro ⟨text, htext, hvalue⟩
    obtain ⟨hne, hstring, hlt⟩ := (textAt_eq_ok t).mp htext
    cases hvalue
    exact ⟨text, hne, hstring, hlt, rfl⟩
  · rintro ⟨text, hne, hstring, hlt, rfl⟩
    exact ⟨text, (textAt_eq_ok t).mpr ⟨hne, hstring, hlt⟩, rfl⟩

theorem yields_argumentAt (hindex : index < argc.toNat) :
    Yields m (InArguments m argc argv) (argumentAt t argv index) (textAt t m argv index) := by
  have hpointer : InArguments m argc argv (.pointer (argv + 8 * index)) := ⟨index, hindex, .inl rfl⟩
  refine (yields_readPointer hpointer).bind_ok ?_
  show Yields m _ (if argument m argv index = 0 then _ else _)
    (if argument m argv index = 0 then _ else _)
  split
  · exact .fail _
  · rename_i hne
    exact (yields_boundedCString.mapError _).mono fun cell hcell =>
      ⟨index, hindex, .inr ⟨hne, hcell⟩⟩

theorem yields_considerArgument (hindex : index < argc.toNat) (found : Option α) :
    Yields m (InArguments m argc argv) (considerArgument t argv found index)
      (searchStep (fieldAt t m argv) t.duplicate t.parse found index) := by
  have hstep : searchStep (fieldAt t m argv) t.duplicate t.parse found index =
      textAt t m argv index >>= fun text =>
        match stripTag t.tag text with
        | none => .ok found
        | some value =>
          if found.isSome then .error t.duplicate else do return some (← t.parse value) := by
    rw [searchStep, fieldAt, bind_assoc]
    refine bind_congr fun text => ?_
    rw [pure_bind]
    rcases stripTag t.tag text with _ | value
    · rfl
    · rfl
  rw [hstep]
  refine (yields_argumentAt t hindex).bind fun text _ => ?_
  split
  · exact .pure found
  · split
    · exact .fail _
    · exact .lift _

theorem argumentCount_eq_ok {count : Nat} : argumentCount t argc argv = .ok count ↔
    count = argc.toNat ∧ 1 ≤ argc ∧ argc ≤ maxUbootArgs ∧ argv ≠ 0 := by
  unfold argumentCount
  constructor
  · intro h
    split_ifs at h with hneg hcount hargv
    cases h
    exact ⟨rfl, by omega, by omega, hargv⟩
  · rintro ⟨rfl, hone, hmax, hargv⟩
    rw [if_neg (by omega), if_neg (by omega), if_neg hargv]

theorem yields_findTagged : Yields m (InArguments m argc argv) (findTagged t argc argv)
    (argumentCount t argc argv >>= search (fieldAt t m argv) t.duplicate t.parse) := by
  refine (Yields.lift _).bind fun count hcount => ?_
  obtain ⟨rfl, -⟩ := (argumentCount_eq_ok t).mp hcount
  refine Yields.foldlM (fun found index hindex => ?_) none
  exact yields_considerArgument t (List.mem_range.mp hindex) found

/-- The search finds a value exactly when the arguments hand it over. -/
theorem search_eq_ok (h : PointerContract m argc argv) {a : α} :
    (argumentCount t argc argv >>= search (fieldAt t m argv) t.duplicate t.parse) = .ok (some a) ↔
      Handoff m argc argv t.tag fun value => t.parse value = .ok a := by
  rw [bind_eq_ok]
  constructor
  · rintro ⟨count, hcount, hsearch⟩
    obtain ⟨rfl, hone, hmax, -⟩ := (argumentCount_eq_ok t).mp hcount
    obtain ⟨i, hi, value, hvalue, hparse, hothers⟩ := search_eq_some.mp hsearch
    obtain ⟨text, hne, hstring, hlt, hstrip⟩ := (fieldAt_eq_ok t).mp hvalue
    rw [stripTag_eq_some] at hstrip
    subst hstrip
    refine ⟨⟨hone, hmax⟩, fun j hj => ?_, i, hi, ⟨value, hstring, hparse⟩, ?_⟩
    · by_cases hji : j = i
      · subst hji
        exact ⟨hne, _, hstring, hlt⟩
      · obtain ⟨text, hne, hstring, hlt, -⟩ := (fieldAt_eq_ok t).mp (hothers j hj hji)
        exact ⟨hne, text, hstring, hlt⟩
    · intro j hj text hstring htag
      by_contra hji
      obtain ⟨text', -, hstring', -, hnone⟩ := (fieldAt_eq_ok t).mp (hothers j hj hji)
      rw [hstring'.unique hstring] at hnone
      exact stripTag_eq_none.mp hnone htag
  · rintro ⟨⟨hone, hmax⟩, harguments, i, hi, ⟨value, hstring, hparse⟩, hothers⟩
    refine ⟨argc.toNat, (argumentCount_eq_ok t).mpr ⟨rfl, hone, hmax, h.table (by omega)⟩,
      search_eq_some.mpr ⟨i, hi, value, ?_, hparse, fun j hj hji => ?_⟩⟩
    · obtain ⟨hne, text, htext, hlt⟩ := harguments i hi
      refine (fieldAt_eq_ok t).mpr ⟨text, hne, htext, hlt, stripTag_eq_some.mpr ?_⟩
      exact htext.unique hstring
    · obtain ⟨hne, text, htext, hlt⟩ := harguments j hj
      refine (fieldAt_eq_ok t).mpr ⟨text, hne, htext, hlt, stripTag_eq_none.mpr fun htag => ?_⟩
      exact hji (hothers j hj text htext htag)

end Search

theorem Handoff.congr {tag : List UInt8} {reads reads' : List UInt8 → Prop}
    (h : Handoff m argc argv tag reads) (himp : ∀ value, reads value → reads' value) :
    Handoff m argc argv tag reads' := by
  obtain ⟨i, hi, ⟨value, hstring, hreads⟩, hothers⟩ := h.tagged
  exact ⟨h.count, h.arguments, i, hi, ⟨value, hstring, himp value hreads⟩, hothers⟩

/-- `fdt_address_from_uboot_args` without its memory. -/
theorem yields_fdtAddress : Yields m (InArguments m argc argv) (fdtAddressFromUbootArgs argc argv)
    (argumentCount fdtArgument argc argv >>=
        search (fieldAt fdtArgument m argv) fdtArgument.duplicate fdtArgument.parse >>= fun
      | none => .error .missingAddress
      | some address => if address = 0 then .error .zeroAddress else .ok address) := by
  refine (yields_findTagged fdtArgument).bind fun found _ => ?_
  rcases found with _ | address
  · exact .fail _
  · show Yields m _ (if address = 0 then _ else _) (if address = 0 then _ else _)
    split
    · exact .fail _
    · exact .pure address

theorem yields_image : Yields m (InArguments m argc argv) (imageFromUbootArgs argc argv)
    (argumentCount imageArgument argc argv >>=
        search (fieldAt imageArgument m argv) imageArgument.duplicate imageArgument.parse >>= fun
      | none => .error (.error .missingImage)
      | some image => .ok image) := by
  refine (yields_findTagged imageArgument).bind fun found _ => ?_
  rcases found with _ | image
  · exact .fail _
  · exact .pure image

theorem fdtAddress_eq_ok (h : PointerContract m argc argv) (a : Nat) :
    (fdtAddressFromUbootArgs argc argv m).1 = .ok a ↔
      Handoff m argc argv fdtArgPrefix fun value => HexNumber value a ∧ 0 < a := by
  rw [yields_fdtAddress.1, bind_eq_ok]
  constructor
  · rintro ⟨_ | address, hfound, hrest⟩
    · cases hrest
    · have hsearch := (search_eq_ok fdtArgument h).mp hfound
      change (if address = 0 then _ else _) = _ at hrest
      split at hrest
      · cases hrest
      · rename_i hzero
        cases hrest
        exact hsearch.congr fun value hvalue =>
          ⟨parseHexAddress_eq_ok.mp hvalue, Nat.pos_of_ne_zero hzero⟩
  · intro hhandoff
    obtain ⟨-, -, ⟨value, -, -, hpos⟩, -⟩ := hhandoff.tagged
    refine ⟨some a, (search_eq_ok fdtArgument h).mpr ?_, if_neg (by omega)⟩
    exact hhandoff.congr fun value hvalue => parseHexAddress_eq_ok.mpr hvalue.1

theorem image_eq_ok (h : PointerContract m argc argv) (image : UbootImage) :
    (imageFromUbootArgs argc argv m).1 = .ok image ↔
      Handoff m argc argv imageArgPrefix fun value => ImageNumbers value image := by
  rw [yields_image.1, bind_eq_ok]
  constructor
  · rintro ⟨_ | image', hfound, hrest⟩
    · cases hrest
    · cases hrest
      exact ((search_eq_ok imageArgument h).mp hfound).congr fun value hvalue =>
        parseImage_eq_ok.mp (mapError_eq_ok.mp hvalue)
  · intro hhandoff
    refine ⟨some image, (search_eq_ok imageArgument h).mpr ?_, rfl⟩
    exact hhandoff.congr fun value hvalue =>
      mapError_eq_ok.mpr (parseImage_eq_ok.mpr hvalue)

/-- **The handoff is parsed exactly.** Each function succeeds with a value exactly when the number
of arguments is in range, every argument is a string below the length limit and exactly one of them
has the function's tag, followed by that value; and no location is read but the pointers of the
table and the strings, up to the NUL at their end. -/
theorem uboot_handoff_exact (m : Memory) (argc : Int) (argv : Nat)
    (h : PointerContract m argc argv) :
    (∀ a, (fdtAddressFromUbootArgs argc argv m).1 = .ok a ↔
      Handoff m argc argv fdtArgPrefix fun value => HexNumber value a ∧ 0 < a) ∧
    (∀ image, (imageFromUbootArgs argc argv m).1 = .ok image ↔
      Handoff m argc argv imageArgPrefix fun value => ImageNumbers value image) ∧
    (∀ cell ∈ (fdtAddressFromUbootArgs argc argv m).2, InArguments m argc argv cell) ∧
    ∀ cell ∈ (imageFromUbootArgs argc argv m).2, InArguments m argc argv cell :=
  ⟨fdtAddress_eq_ok h, image_eq_ok h, yields_fdtAddress.2, yields_image.2⟩

def bootFdt : List UInt8 := ascii ['f', 'd', 't', '=', '0', 'x', '1', 'F']

def bootImage : List UInt8 :=
  ascii ['i', 'm', 'a', 'g', 'e', '=', '0', 'x', '8', ',', '0', 'x', '4']

/-- A memory with the arguments `image=0x8,0x4` and `fdt=0x1F`. -/
def bootMemory : Memory
  | .pointer address => (if address = 8 then 200 else 100 : Nat)
  | .byte address =>
      if address < 200 then bootFdt.getD (address - 100) 0 else bootImage.getD (address - 200) 0

theorem bootMemory_contract : PointerContract bootMemory 2 8 where
  table _ := by decide
  strings i hi _ := by
    rcases i with _ | _ | i
    · exact ⟨bootImage, rfl, by decide, rfl⟩
    · exact ⟨bootFdt, rfl, by decide, rfl⟩
    · exact absurd hi (by simp)

theorem uboot_handoff_exact_boot : PointerContract bootMemory 2 8 ∧
    (Handoff bootMemory 2 8 fdtArgPrefix fun value => HexNumber value 31 ∧ 0 < 31) ∧
    Handoff bootMemory 2 8 imageArgPrefix fun value => ImageNumbers value ⟨8, 4⟩ :=
  ⟨bootMemory_contract,
    ((uboot_handoff_exact bootMemory 2 8 bootMemory_contract).1 31).mp (by decide +kernel),
    ((uboot_handoff_exact bootMemory 2 8 bootMemory_contract).2.1 ⟨8, 4⟩).mp (by decide +kernel)⟩

end Tvisor.Fdt
