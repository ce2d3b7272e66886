/-
# Tvisor.Mmio.Widths -- which accesses respect their size

A load of `w` bytes should leave a value below `2 ^ (8 * w)` in its register, and a store of `w`
bytes should depend on the low `8 * w` bits of its register only. Both devices accept sizes 1, 2 and
4 and then work on whole words, so neither law holds everywhere. The two theorems here say exactly
where each one does.
-/
import Tvisor.Mmio.Receiver

namespace Tvisor.Mmio

open Fallible MmioDispatcher

variable {access : MmioAccess} {d : MmioDispatcher}

/-! ## What the decoder produces -/

theorem widthOf_ok {sas : UInt32} {width : UInt8} (h : widthOf sas = .ok width) :
    width = 1 ∨ width = 2 ∨ width = 4 ∨ width = 8 := by
  unfold widthOf at h
  split_ifs at h <;> cases h <;> simp

theorem register_le (iss : UInt32) : ((iss >>> esrSrtShift) &&& 0x1f).toUInt8 ≤ 31 := by
  have hle : ((iss >>> esrSrtShift) &&& 0x1f).toNat ≤ 31 := UInt32.and_le_right
  rw [UInt8.le_iff_toNat_le, UInt32.toNat_toUInt8]
  exact Nat.le_trans (Nat.mod_le _ _) hle

/-- A decoded access keeps its address, names one of 32 registers and has one of four sizes. -/
theorem decodeDataAbort_ok {esr ipa : UInt64} (h : decodeDataAbort esr ipa = .ok access) :
    access.ipa = ipa ∧ access.Decoded ∧
      (access.width = 1 ∨ access.width = 2 ∨ access.width = 4 ∨ access.width = 8) := by
  simp only [decodeDataAbort] at h
  split at h
  · cases h
  split at h
  · cases h
  rename_i width hwidth
  split at h
  · cases h
  cases h
  exact ⟨rfl, register_le _, widthOf_ok hwidth⟩

theorem supported_of_lt {width : UInt8} (h : width = 1 ∨ width = 2 ∨ width = 4 ∨ width = 8)
    (hlt : width < 4) : Supported width ∧ width.toNat ≤ 2 := by
  rcases h with rfl | rfl | rfl | rfl
  · exact ⟨.inl rfl, by decide⟩
  · exact ⟨.inr (.inl rfl), by decide⟩
  · exact absurd hlt (by decide)
  · exact absurd hlt (by decide)

/-! ## Loads -/

/-- A successful load leaves a value of its size in the target register. -/
def ReadFits (d : MmioDispatcher) (access : MmioAccess) (registers : Registers) : Prop :=
  ∀ byte bus, (emulate access).run ⟨d, registers⟩ = .ok byte bus →
    access.isWrite = false → access.register ≠ 31 →
      (access.source bus.registers).toNat < 2 ^ (8 * access.width.toNat)

/-- The distributor registers that read as a word with bits above the second byte. -/
def WideOffset (offset : UInt64) : Prop := offset = 0x008 ∨ 0x800 ≤ offset ∧ offset ≤ 0x8ff

/-- A load of less than a word from a register that shows more: the distributor's identification and
target registers, and the PL011 interrupt mask when it holds a larger value. -/
def NarrowRead (d : MmioDispatcher) (access : MmioAccess) : Prop :=
  access.isWrite = false ∧ access.register ≠ 31 ∧ access.width < 4 ∧
    ((∃ offset, guestGicd.offset access.ipa = some offset ∧ WideOffset offset) ∨
      (access.pl011Register = some .imsc ∧ 2 ^ (8 * access.width.toNat) ≤ d.pl011.imsc.toNat))

/-- The control register keeps one bit. -/
def Enabled (d : MmioDispatcher) : Prop := d.gicd.ctlr.toNat ≤ 1

theorem Emulates.enabled {bus bus' : Bus} {byte : Option UInt8}
    (h : Emulates access bus (.ok byte bus')) (hctlr : Enabled bus.dispatcher) :
    Enabled bus'.dispatcher := by
  cases h with
  | gicdWrite =>
    simp only [Bus.withGicd, VirtualGicDistributor.stored, Enabled]
    split
    · exact UInt32.le_iff_toNat_le.mp UInt32.and_le_right
    · exact hctlr
  | gicdRead | pl011Transmit | pl011Write | pl011Receive | pl011Read => exact hctlr

theorem enabled_step (h : Enabled d) (op : Op) : Enabled (d.step op).1 := by
  cases op with
  | enqueue byte =>
    obtain ⟨pl011, hrun, -, -⟩ := VirtualPl011.enqueueRx_run (ε := Unit) byte d.pl011
    simp only [step, MmioDispatcher.enqueuePl011Rx, run_zoom, hrun]
    exact h
  | emulate access decoded registers =>
    have hrun := emulate_run decoded ⟨d, registers⟩
    simp only [step]
    generalize (emulate access).run ⟨d, registers⟩ = r at hrun
    rcases r with ⟨byte, bus⟩ | ⟨stop, bus⟩
    · exact hrun.enabled h
    · obtain ⟨rfl, e, rfl⟩ := hrun.error
      exact h

theorem enabled_run (ops : List Op) : Enabled (MmioDispatcher.default.run ops) :=
  foldl_invariant _ Enabled (fun _ op h => enabled_step h op) ops (by decide : (0 : Nat) ≤ 1)

/-- The word that a distributor register shows. -/
theorem gicd_status_lt {d : VirtualGicDistributor} (hctlr : d.ctlr.toNat ≤ 1) {offset : UInt64}
    (hwide : ¬ WideOffset offset) : (d.status offset).toNat < 2 ^ 8 := by
  unfold VirtualGicDistributor.status
  split_ifs with h0 h4 h8 h800
  · rw [UInt32.toNat_toUInt64]
    omega
  · decide
  · exact absurd (.inl h8) hwide
  · exact absurd (.inr h800) hwide
  · decide

theorem gicd_status_wide {d : VirtualGicDistributor} {offset : UInt64} (hwide : WideOffset offset) :
    2 ^ 16 ≤ (d.status offset).toNat ∧ (d.status offset).toNat < 2 ^ 32 := by
  unfold VirtualGicDistributor.status
  rcases hwide with rfl | ⟨hlo, hhi⟩
  · rw [if_neg (by decide), if_neg (by decide), if_pos rfl]
    decide
  · have hne : ∀ k : UInt64, k < 0x800 → offset ≠ k := by
      rintro k hk rfl
      exact absurd hlo (UInt64.not_le.mpr hk)
    rw [if_neg (hne _ (by decide)), if_neg (hne _ (by decide)), if_neg (hne _ (by decide)),
      if_pos ⟨hlo, hhi⟩]
    decide

/-- Every PL011 register but the interrupt mask shows one byte. -/
theorem pl011_status_lt (d : VirtualPl011) {register : Pl011Register} (h : register ≠ .imsc) :
    (d.status register).toNat < 2 ^ 8 := by
  cases register with
  | imsc => exact absurd rfl h
  | fr | ris | mis =>
    simp only [VirtualPl011.status]
    split <;> decide
  | _ => simp [VirtualPl011.status]

theorem extend_of_lt (access : MmioAccess) {result : UInt64} (h : result.toNat < 2 ^ 32) :
    access.extend result = result := by
  unfold MmioAccess.extend
  split
  · rfl
  · apply UInt64.toNat_inj.mp
    rw [UInt32.toNat_toUInt64, UInt64.toNat_toUInt32, Nat.mod_eq_of_lt h]

/-- What a load of a word-sized register leaves in its target. -/
theorem source_delivered (h : access.Decoded) (h31 : access.register ≠ 31) {result : UInt64}
    (hlt : result.toNat < 2 ^ 32) (registers : Registers) :
    (access.source (access.deliver result registers)).toNat = result.toNat := by
  rw [source_deliver h h31, extend_of_lt access hlt]

/-- A narrow load of a wider register does not fit. -/
theorem NarrowRead.not_readFits {registers : Registers} (hdecoded : access.Decoded)
    (hwidths : access.width = 1 ∨ access.width = 2 ∨ access.width = 4 ∨ access.width = 8)
    (h : NarrowRead d access) : ¬ ReadFits d access registers := by
  obtain ⟨hread, h31, hlt, hregister⟩ := h
  obtain ⟨hwidth, hle⟩ := supported_of_lt hwidths hlt
  have hrun := emulate_run hdecoded ⟨d, registers⟩
  intro hfits
  rcases hregister with ⟨offset, hgicd, hwide⟩ | ⟨himsc, hvalue⟩
  · have hok := hrun.unique (.gicdRead hgicd hwidth hread)
    have hvalue := hfits _ _ hok hread h31
    obtain ⟨hlarge, hsmall⟩ := gicd_status_wide (d := d.gicd) hwide
    have hshown : (d.gicd.status offset).toNat < 2 ^ (8 * access.width.toNat) := by
      rwa [← source_delivered hdecoded h31 hsmall registers]
    have hpow : 2 ^ (8 * access.width.toNat) ≤ 2 ^ 16 :=
      Nat.pow_le_pow_right (by decide) (by omega)
    omega
  · obtain ⟨bus, hok, hregisters⟩ := hrun.reads ⟨himsc, hread, hwidth⟩
    have hshown := hfits _ _ hok hread h31
    have hmask : (d.pl011.status .imsc).toNat = d.pl011.imsc.toNat := UInt32.toNat_toUInt64 _
    rw [hregisters, if_neg (by decide), source_delivered hdecoded h31
      (hmask ▸ d.pl011.imsc.toNat_lt), hmask] at hshown
    omega

/-- Every other load fits. -/
theorem readFits_of_not_narrow {registers : Registers} (hdecoded : access.Decoded)
    (hctlr : Enabled d) (h : ¬ NarrowRead d access) :
    ReadFits d access registers := by
  intro byte bus hrun hread h31
  have hcases := emulate_run hdecoded ⟨d, registers⟩
  rw [hrun] at hcases
  have hbyte : ∀ {value : UInt64}, Supported access.width → value.toNat < 2 ^ 8 →
      (access.source (access.deliver value registers)).toNat < 2 ^ (8 * access.width.toNat) := by
    intro value hwidth hvalue
    rw [source_delivered hdecoded h31 (by omega)]
    rcases hwidth with h | h | h <;> rw [h]
    · exact hvalue
    · exact Nat.lt_of_lt_of_le hvalue (by decide)
    · exact Nat.lt_of_lt_of_le hvalue (by decide)
  have hword : ∀ {value : UInt64}, access.width = 4 → value.toNat < 2 ^ 32 →
      (access.source (access.deliver value registers)).toNat < 2 ^ (8 * access.width.toNat) := by
    intro value hwidth hvalue
    rw [source_delivered hdecoded h31 hvalue, hwidth]
    exact hvalue
  have hfour : Supported access.width → ¬ access.width < 4 → access.width = 4 := by
    rintro (h | h | h) hnot
    · exact absurd (h ▸ by decide) hnot
    · exact absurd (h ▸ by decide) hnot
    · exact h
  cases hcases with
  | gicdWrite _ _ hwrite | pl011Transmit _ _ hwrite | pl011Write _ _ hwrite =>
    simp [hread] at hwrite
  | @gicdRead offset hgicd hwidth _ =>
    by_cases hwide : WideOffset offset
    · have hnot : ¬ access.width < 4 :=
        fun hlt => h ⟨hread, h31, hlt, .inl ⟨offset, hgicd, hwide⟩⟩
      exact hword (hfour hwidth hnot) (gicd_status_wide hwide).2
    · exact hbyte hwidth (gicd_status_lt hctlr hwide)
  | pl011Receive _ hwidth =>
    have hfront : d.pl011.front.toUInt64.toNat < 2 ^ 8 := by
      rw [UInt8.toNat_toUInt64]
      exact d.pl011.front.toNat_lt
    exact hbyte hwidth hfront
  | @pl011Read register hpl011 hwidth _ _ =>
    by_cases himsc : register = .imsc
    · subst himsc
      have hmask : (d.pl011.status .imsc).toNat = d.pl011.imsc.toNat := UInt32.toNat_toUInt64 _
      by_cases hlt : access.width < 4
      · have hsmall : d.pl011.imsc.toNat < 2 ^ (8 * access.width.toNat) := by
          by_contra hlarge
          exact h ⟨hread, h31, hlt, .inr ⟨hpl011, Nat.le_of_not_lt hlarge⟩⟩
        show (access.source (access.deliver (d.pl011.status .imsc) registers)).toNat < _
        rwa [source_delivered hdecoded h31 (hmask ▸ d.pl011.imsc.toNat_lt), hmask]
      · exact hword (hfour hwidth hlt) (hmask ▸ d.pl011.imsc.toNat_lt)
    · exact hbyte hwidth (pl011_status_lt d.pl011 himsc)

/-- A decoded load respects its size exactly when it is not a narrow load of a wider register. -/
theorem read_fits_iff (ops : List Op) {esr ipa : UInt64} {access : MmioAccess}
    (hdecode : decodeDataAbort esr ipa = .ok access) (registers : Registers) :
    ReadFits (MmioDispatcher.default.run ops) access registers ↔
      ¬ NarrowRead (MmioDispatcher.default.run ops) access := by
  obtain ⟨-, hdecoded, hwidths⟩ := decodeDataAbort_ok hdecode
  refine ⟨?_, readFits_of_not_narrow hdecoded (enabled_run ops)⟩
  intro hfits hnarrow
  exact hnarrow.not_readFits hdecoded hwidths hfits

/-- The guest stores 0x150 to the PL011 interrupt mask. -/
def maskStore : Op :=
  .emulate ⟨0x09000038, true, 4, 5, false⟩ (show 5 ≤ 31 by decide) (Vector.replicate 31 0x150)

/-- Then a halfword load of it fits, and a byte load does not. -/
theorem read_fits_iff_imsc :
    ReadFits (MmioDispatcher.default.run [maskStore]) ⟨0x09000038, false, 2, 5, false⟩
      (Vector.replicate 31 0) ∧
    ¬ ReadFits (MmioDispatcher.default.run [maskStore]) ⟨0x09000038, false, 1, 5, false⟩
      (Vector.replicate 31 0) := by
  constructor
  · refine (read_fits_iff _ (show decodeDataAbort 0x93450000 0x09000038 = .ok _ by decide) _).mpr ?_
    rintro ⟨-, -, -, ⟨offset, hoffset, -⟩ | ⟨-, hvalue⟩⟩
    · cases hoffset
    · exact absurd hvalue (by decide)
  · rw [read_fits_iff _ (show decodeDataAbort 0x93050000 0x09000038 = .ok _ by decide), not_not]
    exact ⟨rfl, by decide, by decide, .inr ⟨by decide, by decide⟩⟩

/-- A byte load of the distributor's identification register leaves a whole word in the target. -/
theorem read_of_iidr_too_wide :
    decodeDataAbort 0x93050000 0x08000008 = .ok ⟨0x08000008, false, 1, 5, false⟩ ∧
      ¬ ReadFits (MmioDispatcher.default.run []) ⟨0x08000008, false, 1, 5, false⟩
        (Vector.replicate 31 0) := by
  refine ⟨by decide, ?_⟩
  intro hfits
  exact absurd (hfits none _ rfl rfl (by decide)) (by decide)

/-! ## Stores -/

/-- The two register files agree in the bytes that the access stores. -/
def MmioAccess.Agree (access : MmioAccess) (registers registers' : Registers) : Prop :=
  (access.source registers).toNat % 2 ^ (8 * access.width.toNat) =
    (access.source registers').toNat % 2 ^ (8 * access.width.toNat)

instance (access : MmioAccess) (registers registers' : Registers) :
    Decidable (access.Agree registers registers') := inferInstanceAs (Decidable (_ = _))

/-- A successful store has the same effect for any two register files that agree in the stored
bytes. -/
def StoreLocal (d : MmioDispatcher) (access : MmioAccess) : Prop :=
  ∀ registers registers' byte bus, access.Agree registers registers' →
    (emulate access).run ⟨d, registers⟩ = .ok byte bus →
      ∃ bus', (emulate access).run ⟨d, registers'⟩ = .ok byte bus' ∧
        bus'.dispatcher = bus.dispatcher

/-- A store of less than a word to the PL011 interrupt mask. -/
def NarrowMask (access : MmioAccess) : Prop :=
  access.pl011Register = some .imsc ∧ access.width < 4 ∧ access.register ≠ 31

section Truncation

variable {a b : UInt64} {w : Nat}

theorem mod_of_agree {k : Nat} (hk : k ≤ 8 * w)
    (h : a.toNat % 2 ^ (8 * w) = b.toNat % 2 ^ (8 * w)) : a.toNat % 2 ^ k = b.toNat % 2 ^ k := by
  have hdvd : 2 ^ k ∣ 2 ^ (8 * w) := pow_dvd_pow 2 hk
  rw [← Nat.mod_mod_of_dvd a.toNat hdvd, h, Nat.mod_mod_of_dvd b.toNat hdvd]

theorem toUInt8_of_agree (hw : 1 ≤ w) (h : a.toNat % 2 ^ (8 * w) = b.toNat % 2 ^ (8 * w)) :
    a.toUInt8 = b.toUInt8 := by
  apply UInt8.toNat_inj.mp
  rw [UInt64.toNat_toUInt8, UInt64.toNat_toUInt8]
  exact mod_of_agree (by omega) h

theorem toUInt32_of_agree (hw : 4 ≤ w) (h : a.toNat % 2 ^ (8 * w) = b.toNat % 2 ^ (8 * w)) :
    a.toUInt32 = b.toUInt32 := by
  apply UInt32.toNat_inj.mp
  rw [UInt64.toNat_toUInt32, UInt64.toNat_toUInt32]
  exact mod_of_agree (by omega) h

theorem bit0_of_agree (hw : 1 ≤ w) (h : a.toNat % 2 ^ (8 * w) = b.toNat % 2 ^ (8 * w)) :
    a.toUInt32 &&& 1 = b.toUInt32 &&& 1 := by
  have hbit : a.toNat % 2 ^ 1 = b.toNat % 2 ^ 1 := mod_of_agree (by omega) h
  apply UInt32.toNat_inj.mp
  rw [UInt32.toNat_and, UInt32.toNat_and, UInt64.toNat_toUInt32, UInt64.toNat_toUInt32]
  show _ &&& 1 = _ &&& 1
  rw [Nat.and_one_is_mod, Nat.and_one_is_mod]
  omega

end Truncation

/-- Any store but a narrow one to the interrupt mask is local. -/
theorem storeLocal_of_not_narrow (hdecoded : access.Decoded) (hwrite : access.isWrite = true)
    (h : ¬ NarrowMask access) :
    StoreLocal d access := by
  intro registers registers' byte bus hagree hrun
  have hcases := emulate_run hdecoded ⟨d, registers⟩
  rw [hrun] at hcases
  have hother := emulate_run hdecoded ⟨d, registers'⟩
  have hpos : Supported access.width → 1 ≤ access.width.toNat := by
    rintro (h | h | h) <;> rw [h] <;> decide
  cases hcases with
  | @gicdWrite offset hoffset hwidth =>
    refine ⟨_, hother.unique (.gicdWrite hoffset hwidth hwrite), ?_⟩
    have hstored : d.gicd.stored offset (access.source registers') =
        d.gicd.stored offset (access.source registers) := by
      simp only [VirtualGicDistributor.stored, bit0_of_agree (hpos hwidth) hagree]
    simp only [Bus.withGicd, hstored]
  | gicdRead _ _ hread | pl011Receive _ _ hread | pl011Read _ _ hread => simp [hwrite] at hread
  | pl011Transmit hregister hwidth =>
    rw [toUInt8_of_agree (hpos hwidth) hagree]
    exact ⟨_, hother.unique (.pl011Transmit hregister hwidth hwrite), rfl⟩
  | @pl011Write register hregister hwidth _ hdr =>
    refine ⟨_, hother.unique (.pl011Write hregister hwidth hwrite hdr), ?_⟩
    have hstored : d.pl011.stored register (access.source registers') =
        d.pl011.stored register (access.source registers) := by
      unfold VirtualPl011.stored
      split
      · -- The mask takes a whole word, so the store has to be of a word or of the zero register.
        rename_i himsc
        have hvalue : (access.source registers').toUInt32 =
            (access.source registers).toUInt32 := by
          by_cases h31 : access.register = 31
          · have hzero : ∀ registers : Registers, access.source registers = 0 := by
              intro registers
              rw [MmioAccess.source, dif_neg fun hlt => hdecoded.index_lt_iff.mp hlt h31]
            rw [hzero, hzero]
          · have hnot : ¬ access.width < 4 := fun hlt => h ⟨himsc ▸ hregister, hlt, h31⟩
            exact (toUInt32_of_agree (UInt8.not_lt.mp hnot) hagree).symm
        rw [hvalue]
      · rfl
    simp only [Bus.withPl011, hstored]

/-- Two register files that differ only in bit 16 of the source register. -/
theorem NarrowMask.not_storeLocal (hdecoded : access.Decoded) (hwrite : access.isWrite = true)
    (hwidths : access.width = 1 ∨ access.width = 2 ∨ access.width = 4 ∨ access.width = 8)
    (h : NarrowMask access) : ¬ StoreLocal d access := by
  obtain ⟨hregister, hlt, h31⟩ := h
  obtain ⟨hwidth, hle⟩ := supported_of_lt hwidths hlt
  have hindex := hdecoded.index_lt_iff.mpr h31
  have hsource : ∀ value : UInt64, access.source
      ((Vector.replicate 31 0 : Registers).set access.register.toNat value) = value := by
    intro value
    rw [MmioAccess.source, dif_pos hindex]
    exact Vector.getElem_set_self hindex
  have hrun : ∀ registers, (emulate access).run ⟨d, registers⟩ = .ok none
      (Bus.withPl011 ⟨d, registers⟩ (d.pl011.stored .imsc (access.source registers))) :=
    fun registers => (emulate_run hdecoded ⟨d, registers⟩).unique
      (.pl011Write hregister hwidth hwrite (by decide))
  intro hlocal
  have hagree : access.Agree ((Vector.replicate 31 0 : Registers).set access.register.toNat 0)
      ((Vector.replicate 31 0 : Registers).set access.register.toNat 0x10000) := by
    rw [MmioAccess.Agree, hsource, hsource]
    have hdvd : 2 ^ (8 * access.width.toNat) ∣ 2 ^ 16 := pow_dvd_pow 2 (by omega)
    exact (Nat.zero_mod _).trans (Nat.mod_eq_zero_of_dvd hdvd).symm
  obtain ⟨bus', hrun', hsame⟩ := hlocal _ _ _ _ hagree (hrun _)
  rw [hrun] at hrun'
  cases hrun'
  -- The two stores leave different masks.
  have himsc := congrArg (fun d => d.pl011.imsc) hsame
  simp only [Bus.withPl011, VirtualPl011.stored, if_true, hsource] at himsc
  exact absurd himsc (by decide)

/-- A decoded store depends only on the bytes it stores exactly when it is not a narrow store to the
PL011 interrupt mask. -/
theorem store_local_iff (d : MmioDispatcher) {esr ipa : UInt64} {access : MmioAccess}
    (hdecode : decodeDataAbort esr ipa = .ok access) (hwrite : access.isWrite = true) :
    StoreLocal d access ↔ ¬ NarrowMask access := by
  obtain ⟨-, hdecoded, hwidths⟩ := decodeDataAbort_ok hdecode
  refine ⟨?_, storeLocal_of_not_narrow hdecoded hwrite⟩
  intro hlocal hnarrow
  exact hnarrow.not_storeLocal hdecoded hwrite hwidths hlocal

/-- A byte store to the data register. -/
theorem store_local_iff_dataRegister :
    StoreLocal .default ⟨0x09000000, true, 1, 5, false⟩ ↔
      ¬ NarrowMask ⟨0x09000000, true, 1, 5, false⟩ :=
  store_local_iff .default (show decodeDataAbort 0x93050040 0x09000000 = .ok _ by decide) rfl

/-- A byte store to the interrupt mask takes the bits above the byte with it. -/
theorem store_to_mask_not_local :
    decodeDataAbort 0x93050040 0x09000038 = .ok ⟨0x09000038, true, 1, 5, false⟩ ∧
      ¬ StoreLocal .default ⟨0x09000038, true, 1, 5, false⟩ := by
  refine ⟨by decide, ?_⟩
  intro hlocal
  obtain ⟨bus, hrun, hsame⟩ := hlocal (Vector.replicate 31 0x10) (Vector.replicate 31 0x110) _ _
    (by decide) rfl
  cases hrun
  exact absurd (congrArg (fun d => d.pl011.imsc) hsame) (by decide)

end Tvisor.Mmio
