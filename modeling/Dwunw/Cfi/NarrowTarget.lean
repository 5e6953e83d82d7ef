import Dwunw.Cfi.ApplyRow
import Dwunw.Cfi.Links
import Dwunw.Cfi.Pointers
import Dwunw.Lib.CallFrame

/-!
Targets with 32-bit words.

The addresses of an FDE have the size that its CIE says, and the saved registers of such a
target lie four bytes apart.  `read_encoded_pointer` reads an absolute address as eight bytes,
and `apply_rule` reads eight bytes for every register.

* `NarrowFde`, `NarrowFde.Recovered`: an FDE with 4-byte addresses, and what it says.
* `parseFde_recovers_iff`: it is read back exactly when `NarrowFde.Wraps`, which takes a length of
  augmentation data that wraps around the address space.
* `TargetMem`: the memory of a target, which need not have a byte at every address.
* `RestoresWords`, `cfiEval_restoresWords_iff`: the saved registers are read as words exactly when
  every word behind a saved register is 0.
-/

namespace Dwunw

open Leb128 Sweep Traced

/-! ### Addresses -/

/-- An FDE with 4-byte addresses, from its initial location on; the augmentation data are there
where the CIE announces them. -/
structure NarrowFde where
  initialLocation : UInt32
  addressRange : UInt32
  augmentation : Option CallFrame.Block
  instructions : List UInt8

namespace NarrowFde

/-- The augmentation data with their length. -/
def augmentationBytes (f : NarrowFde) : List UInt8 := f.augmentation.elim [] CallFrame.Block.bytes

/-- What stands behind the addresses. -/
def rest (f : NarrowFde) : List UInt8 := f.augmentationBytes ++ f.instructions

def bytes (f : NarrowFde) : List UInt8 :=
  leBytes 4 f.initialLocation.toNat ++ (leBytes 4 f.addressRange.toNat ++ f.rest)

/-- The record has the addresses of the FDE, and its program starts right behind them and the
augmentation data. -/
structure Recovered (f : NarrowFde) (payload : UInt64) (fde : FdeRecord) : Prop where
  pcBegin : fde.pcBegin = f.initialLocation.toUInt64
  pcRange : fde.pcRange = f.addressRange.toUInt64
  instructions : fde.instructions = payload + UInt64.ofNat (8 + f.augmentationBytes.length)
  instructionsSize : fde.instructionsSize = UInt64.ofNat f.instructions.length

/-- The range is 0, the eight bytes behind it are 0, and the number that follows them as the
length of augmentation data leads around the address space to the program. -/
def Wraps (f : NarrowFde) : Prop :=
  f.addressRange = 0 ∧ f.augmentation.isSome ∧
    ∃ g bs, f.rest = List.replicate 8 0 ++ (g ++ bs) ∧ Group g ∧ g.length ≤ 10 ∧
      16 + UInt64.ofNat g.length + UInt64.ofNat (unsigned g) =
        UInt64.ofNat (8 + f.augmentationBytes.length)

end NarrowFde

variable {m : ByteMem} {sec : Section} {c stop : UInt64}

/-- An absolute address is read as eight bytes, if there are as many. -/
lemma readEncodedPointer_wide (start : UInt64) {bs : List UInt8} (h : Span m c stop bs) :
    (readEncodedPointer dwEhPeAbsptr c start stop).val m =
      if bs.length < 8 then .error .badFormat
      else .ok (UInt64.ofNat (leNat (peek m 8 c)), c + 8) := by
  have hroom : stop - c < UInt64.ofNat 8 ↔ bs.length < 8 := by
    rw [UInt64.lt_iff_toNat_lt, h.sub_toNat]
    rfl
  rw [readEncodedPointer_absolute (by decide)]
  refine (val_readFixedSize (n := 8) (by simp [IsFixedSize])).trans ?_
  by_cases hshort : bs.length < 8
  · rw [if_pos (hroom.mpr hshort), if_pos hshort]
  · rw [if_neg fun h => hshort (hroom.mp h), if_neg hshort]
    rfl

lemma readEncodedPointer_eight (start : UInt64) {xs bs : List UInt8} (hx : xs.length = 8)
    (h : Span m c stop (xs ++ bs)) :
    (readEncodedPointer dwEhPeAbsptr c start stop).val m =
      .ok (UInt64.ofNat (leNat xs), c + 8) := by
  have hpeek := h.left.holds.peek_eq
  rw [hx] at hpeek
  rw [readEncodedPointer_wide start h, List.length_append, if_neg (by omega), hpeek]

lemma span_behind_eight {xs bs : List UInt8} (hx : xs.length = 8) (h : Span m c stop (xs ++ bs)) :
    Span m (c + 8) stop bs := by
  have hrest := h.append
  rw [hx] at hrest
  exact hrest

section Fde

variable {start payload : UInt64} {id : UInt32} {isEh : Bool} {cies : CieVector} {ptr : CiePtr}
  {cie : CieRecord}

/-- Both addresses of an FDE with absolute addresses take eight bytes. -/
lemma parseFdeRange_eight {xs ys zs : List UInt8} (hx : xs.length = 8) (hy : ys.length = 8)
    (h : Span m payload stop (xs ++ (ys ++ zs))) :
    (parseFdeRange sec dwEhPeAbsptr payload stop).val m =
      .ok (UInt64.ofNat (leNat xs), UInt64.ofNat (leNat ys), payload + 8 + 8) := by
  have hzero : dwEhPeAbsptr &&& 0x0f = dwEhPeAbsptr := by decide
  rw [parseFdeRange, val_bind_ok (readEncodedPointer_eight sec.data hx h)]
  dsimp only
  rw [hzero, val_bind_ok (readEncodedPointer_eight sec.data hy (span_behind_eight hx h)), val_pure]

/-- Behind the first address there must be another eight bytes. -/
lemma parseFdeRange_short {xs ys : List UInt8} (hx : xs.length = 8) (hy : ys.length < 8)
    (h : Span m payload stop (xs ++ ys)) :
    (parseFdeRange sec dwEhPeAbsptr payload stop).val m = .error .badFormat := by
  have hzero : dwEhPeAbsptr &&& 0x0f = dwEhPeAbsptr := by decide
  have hread := readEncodedPointer_wide sec.data (span_behind_eight hx h)
  rw [if_pos hy] at hread
  rw [parseFdeRange, val_bind_ok (readEncodedPointer_eight sec.data hx h)]
  dsimp only
  rw [hzero]
  exact val_bind_error hread _

/-- The two addresses of an FDE, read as one. -/
lemma NarrowFde.leNat_addresses (f : NarrowFde) :
    leNat (leBytes 4 f.initialLocation.toNat ++ leBytes 4 f.addressRange.toNat) =
      f.initialLocation.toNat + 2 ^ 32 * f.addressRange.toNat := by
  have hb := f.initialLocation.toNat_lt
  have hr := f.addressRange.toNat_lt
  rw [leNat_append, leNat_leBytes, leNat_leBytes, leBytes_length,
    Nat.mod_eq_of_lt (by omega), Nat.mod_eq_of_lt (by omega)]
  rfl

/-- The first address is right exactly where the second one is 0. -/
lemma NarrowFde.initialLocation_eq_iff {f : NarrowFde} :
    UInt64.ofNat (f.initialLocation.toNat + 2 ^ 32 * f.addressRange.toNat) =
      f.initialLocation.toUInt64 ↔ f.addressRange = 0 := by
  have hb := f.initialLocation.toNat_lt
  have hr := f.addressRange.toNat_lt
  have h0 : (0 : UInt32).toNat = 0 := rfl
  rw [← UInt64.toNat_inj, ← UInt32.toNat_inj, UInt64.toNat_ofNat', UInt32.toNat_toUInt64,
    Nat.mod_eq_of_lt (by omega), h0]
  omega

/-- A number of eight bytes that is taken for 0 is 0. -/
lemma eq_zeros_of_word {ys : List UInt8} (hy : ys.length = 8)
    (h : UInt64.ofNat (leNat ys) = 0) : ys = List.replicate 8 0 := by
  have hlt := leNat_lt ys
  have hnat := congrArg UInt64.toNat h
  rw [hy] at hlt
  rw [UInt64.toNat_ofNat', Nat.mod_eq_of_lt (by omega)] at hnat
  rw [← hy]
  exact leNat_eq_zero_iff.mp hnat

/-- The augmentation data of the FDE, as `parse_fde` skips them. -/
lemma readAugmentationSize_ok_iff {r : UInt64 × UInt64} :
    (readAugmentationSize c stop).val m = .ok r ↔
      ∃ g, Group g ∧ g.length ≤ 10 ∧ Holds m c g ∧ c.toNat + g.length ≤ stop.toNat ∧
        ¬ stop < r.1 + UInt64.ofNat (unsigned g) ∧ r.1 = c + UInt64.ofNat g.length ∧
        r.2 = r.1 + UInt64.ofNat (unsigned g) := by
  constructor
  · intro h
    obtain ⟨⟨size, p⟩, hsize, h⟩ := val_bind_eq_ok h
    obtain ⟨g, hg, hlen, hh, hend, rfl, rfl⟩ := readUleb_ok_iff.mp hsize
    dsimp only at h
    split_ifs at h with hfits
    · cases h
    · cases h
      exact ⟨g, hg, hlen, hh, hend, hfits, rfl, rfl⟩
  · rintro ⟨g, hg, hlen, hh, hend, hfits, h1, h2⟩
    rw [h1] at hfits h2
    rw [readAugmentationSize, val_bind_ok (readUleb_group hg hlen hh hend)]
    dsimp only
    rw [if_neg hfits, val_pure, ← h2, ← h1]

section Addresses

variable (start) {z : Bool} {xs ys zs : List UInt8}
  (hfind : findCie cies (fdeCieOffset sec id payload isEh) = some (ptr, cie))
  (henc : cie.ptrEncoding = dwEhPeAbsptr) (hx : xs.length = 8)
include hfind henc hx

/-- Behind two addresses of eight bytes an FDE has the augmentation data that its CIE announces. -/
lemma parseFde_eight (hz : (startsWithZ .parent cie).val m = .ok z) (hy : ys.length = 8)
    (h : Span m payload stop (xs ++ (ys ++ zs))) :
    (parseFde sec start id payload stop isEh cies).val m =
      if z then
        (readAugmentationSize (payload + 8 + 8) stop).val m >>= fun r =>
          .ok ⟨ptr, start - sec.data, UInt64.ofNat (leNat xs), UInt64.ofNat (leNat ys), r.2,
            stop - r.2⟩
      else
        .ok ⟨ptr, start - sec.data, UInt64.ofNat (leNat xs), UInt64.ofNat (leNat ys),
          payload + 8 + 8, stop - (payload + 8 + 8)⟩ := by
  rw [parseFde, hfind]
  dsimp only
  rw [henc, if_neg (by decide), val_bind_ok (parseFdeRange_eight hx hy h)]
  dsimp only
  rw [val_bind_ok hz]
  cases z with
  | false => rfl
  | true => exact val_bind _ _ m

/-- An FDE that ends in front of the second one is rejected. -/
lemma parseFde_short (hy : ys.length < 8) (h : Span m payload stop (xs ++ ys)) :
    (parseFde sec start id payload stop isEh cies).val m = .error .badFormat := by
  rw [parseFde, hfind]
  dsimp only
  rw [henc, if_neg (by decide)]
  exact val_bind_error (parseFdeRange_short hx hy h) _

end Addresses

section Narrow

variable {f : NarrowFde}
  (hfind : findCie cies (fdeCieOffset sec id payload isEh) = some (ptr, cie))
  (henc : cie.ptrEncoding = dwEhPeAbsptr)
  (hz : (startsWithZ .parent cie).val m = .ok f.augmentation.isSome)
  (h : Span m payload stop f.bytes)
include hfind henc hz h

lemma NarrowFde.wraps_of_recovered {fde : FdeRecord}
    (hparse : (parseFde sec start id payload stop isEh cies).val m = .ok fde)
    (hf : f.Recovered payload fde) : f.Wraps := by
  have hx : (leBytes 4 f.initialLocation.toNat ++ leBytes 4 f.addressRange.toNat).length = 8 := by
    rw [List.length_append, leBytes_length, leBytes_length]
  rw [NarrowFde.bytes, ← List.append_assoc] at h
  have hlong : 8 ≤ f.rest.length := by
    by_contra hshort
    rw [parseFde_short start hfind henc hx (Nat.not_le.mp hshort) h] at hparse
    cases hparse
  have hy : (f.rest.take 8).length = 8 := by
    rw [List.length_take, Nat.min_eq_left hlong]
  have hsplit := List.take_append_drop 8 f.rest
  rw [← hsplit] at h
  rw [parseFde_eight start hfind henc hx hz hy h, f.leNat_addresses] at hparse
  cases haug : f.augmentation with
  | none =>
      -- the program would start sixteen bytes behind the payload
      rw [haug, if_neg (by simp)] at hparse
      cases hparse
      have hstart := hf.instructions
      rw [NarrowFde.augmentationBytes, haug] at hstart
      dsimp only [Option.elim] at hstart
      rw [UInt64.add_assoc, UInt64.add_right_inj] at hstart
      exact absurd hstart (by decide)
  | some b =>
      rw [haug, if_pos (by simp)] at hparse
      cases hsize : (readAugmentationSize (payload + 8 + 8) stop).val m with
      | error st =>
          rw [hsize] at hparse
          cases hparse
      | ok r =>
          rw [hsize] at hparse
          cases hparse
          obtain ⟨g, hg, hlen, hh, hend, -, h1, h2⟩ := readAugmentationSize_ok_iff.mp hsize
          have hrange := NarrowFde.initialLocation_eq_iff.mp hf.pcBegin
          have hpc := hf.pcRange
          rw [hrange] at hpc
          have h16 := span_behind_eight hy (span_behind_eight hx h)
          obtain ⟨bs, hbs⟩ := h16.exists_append hh hend
          refine ⟨hrange, by rw [haug]; rfl, g, bs, ?_, hg, hlen, ?_⟩
          · rw [← hbs, ← eq_zeros_of_word hy hpc, hsplit]
          · have hstart := hf.instructions
            dsimp only at hstart
            rw [h2, h1] at hstart
            refine (UInt64.add_right_inj payload).mp (Eq.trans ?_ hstart)
            grind

lemma NarrowFde.Wraps.recovered (hf : f.Wraps) :
    ∃ fde, (parseFde sec start id payload stop isEh cies).val m = .ok fde ∧
      f.Recovered payload fde := by
  obtain ⟨hrange, haug, g, bs, hrest, hg, hlen, hwraps⟩ := hf
  have hx : (leBytes 4 f.initialLocation.toNat ++ leBytes 4 f.addressRange.toNat).length = 8 := by
    rw [List.length_append, leBytes_length, leBytes_length]
  have hy : (List.replicate 8 (0 : UInt8)).length = 8 := List.length_replicate
  rw [NarrowFde.bytes, ← List.append_assoc] at h
  have hprogram := h
  rw [NarrowFde.rest, ← List.append_assoc] at hprogram
  have hprogram := hprogram.append
  rw [List.length_append, hx] at hprogram
  rw [hrest] at h
  have h16 := span_behind_eight hy (span_behind_eight hx h)
  have hl := h16.length_eq
  rw [List.length_append] at hl
  -- the length leads back to the program
  have hbehind : payload + 8 + 8 + UInt64.ofNat g.length + UInt64.ofNat (unsigned g) =
      payload + UInt64.ofNat (8 + f.augmentationBytes.length) := by
    rw [← hwraps]
    grind
  have hsize : (readAugmentationSize (payload + 8 + 8) stop).val m =
      .ok (payload + 8 + 8 + UInt64.ofNat g.length,
        payload + UInt64.ofNat (8 + f.augmentationBytes.length)) := by
    refine readAugmentationSize_ok_iff.mpr
      ⟨g, hg, hlen, h16.left.holds, by omega, ?_, rfl, hbehind.symm⟩
    rw [hbehind]
    exact UInt64.not_lt.mpr hprogram.le
  rw [parseFde_eight start hfind henc hx hz hy h, f.leNat_addresses, if_pos haug, hsize]
  refine ⟨_, rfl, NarrowFde.initialLocation_eq_iff.mpr hrange, ?_, rfl, hprogram.sub_eq⟩
  rw [hrange]
  rfl

end Narrow

/-- Both addresses of an FDE of a CIE with 4-byte absolute addresses are read as eight bytes, so
the FDE is read back exactly when the accident of `Wraps` happens. -/
theorem parseFde_recovers_iff {f : NarrowFde}
    (hfind : findCie cies (fdeCieOffset sec id payload isEh) = some (ptr, cie))
    (henc : cie.ptrEncoding = dwEhPeAbsptr)
    (hz : (startsWithZ .parent cie).val m = .ok f.augmentation.isSome)
    (h : Span m payload stop f.bytes) :
    (∃ fde, (parseFde sec start id payload stop isEh cies).val m = .ok fde ∧
      f.Recovered payload fde) ↔ f.Wraps :=
  ⟨fun ⟨_, hparse, hf⟩ => NarrowFde.wraps_of_recovered hfind henc hz h hparse hf,
    NarrowFde.Wraps.recovered hfind henc hz h⟩

end Fde

/-- The FDE of a function of 0x40 bytes at 0x400100, with a program of eight `DW_CFA_nop`. -/
def mipsFde : NarrowFde := ⟨0x400100, 0x40, none, List.replicate 8 0⟩

/-- Its CIE: the version 1, the alignments 1 and -4, the return register `r31`, and the program
`DW_CFA_def_cfa r29, 0`. -/
def mipsCie : List UInt8 := [1, 0, 1, 0x7c, 31, 0x0c, 29, 0]

/-- A `.debug_frame` of the two. -/
def mipsFrame : List UInt8 := entryBytes 0xffffffff mipsCie ++ entryBytes 0 mipsFde.bytes

/-- The record of `mipsCie`. -/
def mipsCieRecord : CieRecord := ⟨1, 8, 31, 0, -4, 1, 0, 0x1009, 0, 0x100d, 3⟩

/-- An FDE for no addresses with empty augmentation data, and a program whose bytes happen to be
seven zeros and the number 2^64 - 17. -/
def wrappingFde : NarrowFde :=
  ⟨0x400100, 0, some ⟨.ofNat 0, [], rfl⟩, List.replicate 7 0 ++ encodeUnsigned (2 ^ 64 - 17)⟩

/-- Memory with the augmentation string of its CIE and the FDE. -/
def wrappingMem : ByteMem := memOf 0x1000 (0x7a :: wrappingFde.bytes)

/-- An FDE of a 32-bit target: its two addresses are read as one. -/
theorem mipsFde_misread :
    (cfiBuild (memOf 0x1000 mipsFrame) (.fresh fun _ => true)
        (debugFrameAt 0x1000 mipsFrame)).cies.records = [mipsCieRecord] ∧
      (cfiBuild (memOf 0x1000 mipsFrame) (.fresh fun _ => true)
        (debugFrameAt 0x1000 mipsFrame)).fdes.records =
          [⟨⟨some 0, 0⟩, 16, 0x4000400100, 0, 0x1028, 0⟩] ∧
      ¬ ∃ fde, (parseFde (debugFrameAt 0x1000 mipsFrame).debugFrame 0x1010 0 0x1018 0x1028 false
          ⟨some 0, [mipsCieRecord], 8⟩).val (memOf 0x1000 mipsFrame) = .ok fde ∧
        mipsFde.Recovered 0x1018 fde := by
  refine ⟨by decide +kernel, by decide +kernel, ?_⟩
  rintro ⟨fde, hparse, hf⟩
  have hread : (parseFde (debugFrameAt 0x1000 mipsFrame).debugFrame 0x1010 0 0x1018 0x1028 false
      ⟨some 0, [mipsCieRecord], 8⟩).val (memOf 0x1000 mipsFrame) =
        .ok ⟨⟨some 0, 0⟩, 16, 0x4000400100, 0, 0x1028, 0⟩ := by
    decide +kernel
  rw [hread] at hparse
  cases hparse
  exact absurd hf.pcBegin (by decide)

/-- An FDE that is recovered by coincidence. -/
theorem wrappingFde_recovered :
    ∃ fde, (parseFde ⟨0x1000, 28⟩ 0 0 0x1001 0x101b false
        ⟨some 0, [{ mipsCieRecord with augmentation := 0x1000, augmentationLen := 1 }], 8⟩).val
          wrappingMem = .ok fde ∧
      wrappingFde.Recovered 0x1001 fde := by
  have hspan : Span wrappingMem 0x1000 0x101b (0x7a :: wrappingFde.bytes) :=
    ⟨holds_memOf _ (by decide +kernel), by decide +kernel⟩
  refine (parseFde_recovers_iff (by rfl) rfl (by decide +kernel) hspan.cons.2).mpr
    ⟨rfl, rfl, encodeUnsigned (2 ^ 64 - 17), [], by decide +kernel, group_encodeUnsigned _,
      by decide +kernel, ?_⟩
  rw [unsigned_encodeUnsigned]
  decide +kernel

/-! ### Evaluations over two readers -/

section Congr

variable {σ : Type} {fde : FdeRecord} {pc : UInt64} {cie : CieRecord} {regs : Regset}
  {reader reader' : MemoryRead σ}

/-- An evaluation for the address gets to apply this row. -/
structure AppliesRow (m : ByteMem) (cie : CieRecord) (fde : FdeRecord) (pc : UInt64)
    (row : CfaState) : Prop where
  covers : fde.Covers pc
  row : cfiRow m cie fde pc = .ok row
  returnReg : cie.returnReg.toNat < regsetSlots

/-- The place of a saved register. -/
def slotPlace (row : CfaState) (regs : Regset) (i : Fin regsetSlots) : UInt64 :=
  rowCfa row regs + (row.regs i).offset.toUInt64

/-- Two readers return the same at the place of every saved register. -/
def SameSlots (row : CfaState) (regs : Regset) (reader reader' : MemoryRead σ) : Prop :=
  ∀ i c, (row.regs i).kind = .offset →
    reader c (slotPlace row regs i) = reader' c (slotPlace row regs i)

/-- A row reads the saved registers and nothing else. -/
lemma applyRow_congr {row : CfaState} (h : SameSlots row regs reader reader')
    (reg : Fin regsetSlots) (ctx : σ) (frame : Frame) :
    applyRow row reg regs reader ctx frame = applyRow row reg regs reader' ctx frame := by
  have hra : returnAddress row reg (rowCfa row regs) regs reader ctx =
      returnAddress row reg (rowCfa row regs) regs reader' ctx := by
    rw [returnAddress, returnAddress]
    cases hk : (row.regs reg).kind with
    | sameValue => rfl
    | undefined => rfl
    | offset => exact h reg ctx hk
  have hfetch : slotFetch row (rowCfa row regs) reader =
      slotFetch row (rowCfa row regs) reader' := by
    funext i c
    rw [slotFetch, slotFetch]
    cases hk : (row.regs i).kind with
    | sameValue => rfl
    | undefined => rfl
    | offset =>
        have hread := h i c hk
        rw [slotPlace] at hread
        dsimp only [applyRule]
        rw [hread]
  rw [applyRow, applyRow, show regValue regs row.cfaReg + row.cfaOffset.toUInt64 =
    rowCfa row regs from rfl, hra]
  simp only [updateRegs_eq_sweep, hfetch]

/-- So does an evaluation. -/
lemma cfiEval_congr
    (h : ∀ row, AppliesRow m cie fde pc row → SameSlots row regs reader reader')
    (ctx : σ) (frame : Frame) :
    cfiEval m cie fde pc regs reader ctx frame = cfiEval m cie fde pc regs reader' ctx frame := by
  rw [cfiEval, cfiEval]
  by_cases hpc : fde.Covers pc
  swap
  · rw [if_pos (FdeRecord.not_covers_iff.mp hpc), if_pos (FdeRecord.not_covers_iff.mp hpc)]
  rw [if_neg fun hout => FdeRecord.not_covers_iff.mpr hout hpc,
    if_neg fun hout => FdeRecord.not_covers_iff.mpr hout hpc]
  cases hrow : cfiRow m cie fde pc with
  | error st => rfl
  | ok row =>
      dsimp only
      by_cases hret : cie.returnReg.toNat < regsetSlots
      · rw [dif_pos hret, dif_pos hret, applyRow_congr (h row ⟨hpc, hrow, hret⟩)]
      · rw [dif_neg hret, dif_neg hret]

end Congr

/-! ### Saved registers -/

/-- The memory of a target: the byte at an address, if there is one. -/
abbrev TargetMem := UInt64 → Option UInt8

namespace TargetMem

/-- The `n` bytes from an address on, if they are all there. -/
def peek (M : TargetMem) : ℕ → UInt64 → Option (List UInt8)
  | 0, _ => some []
  | n + 1, a => (M a).bind fun b => (peek M n (a + 1)).map (b :: ·)

/-- The little-endian number of `n` bytes at an address. -/
def number (M : TargetMem) (n : ℕ) (a : UInt64) : Option UInt64 :=
  (M.peek n a).map fun bs => UInt64.ofNat (leNat bs)

/-- What the library reads: eight bytes, which must all be there. -/
def read (M : TargetMem) (a : UInt64) : Except Status UInt64 := (M.number 8 a).elim (.error .io) .ok

/-- A reader of the memory. -/
def reader (M : TargetMem) : MemoryRead Unit := fun _ a => (M.read a, ())

variable {M : TargetMem}

lemma peek_length {n : ℕ} {a : UInt64} {bs : List UInt8} (h : M.peek n a = some bs) :
    bs.length = n := by
  induction n generalizing a bs with
  | zero =>
      cases h
      rfl
  | succ n ih =>
      obtain ⟨b, -, h⟩ := Option.bind_eq_some_iff.mp h
      obtain ⟨cs, hcs, rfl⟩ := Option.map_eq_some_iff.mp h
      rw [List.length_cons, ih hcs]

/-- Bytes one behind the other. -/
lemma peek_add (n k : ℕ) (a : UInt64) :
    M.peek (n + k) a =
      (M.peek n a).bind fun xs => (M.peek k (a + UInt64.ofNat n)).map (xs ++ ·) := by
  induction n generalizing a with
  | zero =>
      rw [Nat.zero_add, peek, Option.bind_some, show a + UInt64.ofNat 0 = a from UInt64.add_zero a]
      simp
  | succ n ih =>
      have hnext : a + 1 + UInt64.ofNat n = a + UInt64.ofNat (n + 1) := by
        rw [UInt64.ofNat_add, UInt64.add_comm (UInt64.ofNat n), ← UInt64.add_assoc]
        rfl
      rw [Nat.add_right_comm, peek, peek]
      cases M a with
      | none => rfl
      | some b =>
          rw [Option.bind_some, Option.bind_some, ih, hnext]
          cases M.peek n (a + 1) with
          | none => rfl
          | some xs => cases M.peek k (a + UInt64.ofNat (n + 1)) <;> rfl

/-- Eight bytes are the number of the first four exactly when the next four are 0. -/
lemma read_eq_ok_iff {a w : UInt64} (h : M.number 4 a = some w) :
    M.read a = .ok w ↔ M.number 4 (a + 4) = some 0 := by
  obtain ⟨xs, hxs, rfl⟩ := Option.map_eq_some_iff.mp h
  have hx := leNat_lt xs
  rw [peek_length hxs] at hx
  have hpeek := peek_add (M := M) 4 4 a
  rw [hxs, Option.bind_some] at hpeek
  rw [read, number, number, hpeek, show a + UInt64.ofNat 4 = a + 4 from rfl]
  cases hys : M.peek 4 (a + 4) with
  | none => simp
  | some ys =>
      have hy := leNat_lt ys
      rw [peek_length hys] at hy
      simp only [Option.map_some, Option.elim_some, Except.ok.injEq, Option.some.injEq]
      rw [leNat_append, peek_length hxs, ← UInt64.toNat_inj, ← UInt64.toNat_inj,
        UInt64.toNat_ofNat', UInt64.toNat_ofNat', UInt64.toNat_ofNat',
        Nat.mod_eq_of_lt (by omega), Nat.mod_eq_of_lt (by omega), Nat.mod_eq_of_lt (by omega),
        show (0 : UInt64).toNat = 0 from rfl]
      omega

end TargetMem

section Words

variable {cie : CieRecord} {fde : FdeRecord} {pc : UInt64} {regs : Regset} {frame : Frame}
  {M M₁ M₂ : TargetMem}

/-- Both memories have the same four bytes at the place of every saved register. -/
def SameWords (row : CfaState) (regs : Regset) (M₁ M₂ : TargetMem) : Prop :=
  ∀ i, (row.regs i).kind = .offset →
    ∃ w, M₁.number 4 (slotPlace row regs i) = some w ∧
      M₂.number 4 (slotPlace row regs i) = some w

/-- Two memories give one result, and where a row is applied every saved register, and the
return address, is the four bytes of its place. -/
structure RestoresWords (m : ByteMem) (cie : CieRecord) (fde : FdeRecord) (pc : UInt64)
    (regs : Regset) (frame : Frame) (M₁ M₂ : TargetMem) : Prop where
  same : cfiEval m cie fde pc regs M₁.reader () frame =
    cfiEval m cie fde pc regs M₂.reader () frame
  words : ∀ row (h : AppliesRow m cie fde pc row),
    ∃ ev, cfiEval m cie fde pc regs M₁.reader () frame = some ev ∧ ev.status = .ok ∧
      (∀ i, (row.regs i).kind = .offset →
        M₁.number 4 (slotPlace row regs i) = some (ev.regs.regs i)) ∧
      ((row.regs ⟨cie.returnReg.toNat, h.returnReg⟩).kind = .offset →
        M₁.number 4 (slotPlace row regs ⟨cie.returnReg.toNat, h.returnReg⟩) = some ev.frame.ra)

/-- The four bytes behind every saved register are 0. -/
def ZeroBehind (m : ByteMem) (cie : CieRecord) (fde : FdeRecord) (pc : UInt64) (regs : Regset)
    (M : TargetMem) : Prop :=
  ∀ row, AppliesRow m cie fde pc row → ∀ i, (row.regs i).kind = .offset →
    M.number 4 (slotPlace row regs i + 4) = some 0

lemma TargetMem.read_ne_ok (M : TargetMem) (a : UInt64) : M.read a ≠ .error .ok := by
  rw [TargetMem.read]
  cases M.number 8 a with
  | none => exact fun h => Status.noConfusion (Except.error.inj h)
  | some v => exact fun h => by cases h

/-- What the library reads for every saved register is the word of its place. -/
def ReadsWords (row : CfaState) (regs : Regset) (M : TargetMem) : Prop :=
  ∀ i, (row.regs i).kind = .offset →
    ∃ w, M.number 4 (slotPlace row regs i) = some w ∧ M.read (slotPlace row regs i) = .ok w

/-- This is so exactly when the words behind are 0. -/
lemma zeroBehind_iff (hword : ∀ row, AppliesRow m cie fde pc row →
      ∀ i, (row.regs i).kind = .offset → ∃ w, M.number 4 (slotPlace row regs i) = some w) :
    ZeroBehind m cie fde pc regs M ↔
      ∀ row, AppliesRow m cie fde pc row → ReadsWords row regs M := by
  constructor
  · intro hzero row h i hi
    obtain ⟨w, hw⟩ := hword row h i hi
    exact ⟨w, hw, (TargetMem.read_eq_ok_iff hw).mpr (hzero row h i hi)⟩
  · intro hreads row h i hi
    obtain ⟨w, hw, hr⟩ := hreads row h i hi
    exact (TargetMem.read_eq_ok_iff hw).mp hr

/-- Then the row is applied. -/
lemma ReadsWords.cfiEval_ok {row : CfaState} (h : AppliesRow m cie fde pc row)
    (hreads : ReadsWords row regs M) :
    ∃ ev, cfiEval m cie fde pc regs M.reader () frame = some ev ∧ ev.status = .ok := by
  -- a reader that never fails returns the same
  let total : MemoryRead Unit := fun _ a => (.ok ((M.read a).toOption.getD 0), ())
  have htotal (row' : CfaState) (h' : AppliesRow m cie fde pc row') :
      SameSlots row' regs M.reader total := by
    intro i c hi
    have hrow := h'.row
    rw [h.row, Except.ok.injEq] at hrow
    subst hrow
    obtain ⟨w, -, hw⟩ := hreads i hi
    dsimp only [TargetMem.reader, total]
    rw [hw]
    rfl
  have hnever (c : Unit) (a : UInt64) : ∃ v c', total c a = (.ok v, c') := ⟨_, _, rfl⟩
  rw [cfiEval_congr htotal]
  obtain ⟨ev, hev, hok, -⟩ := cfiEval_succeeds hnever h.covers h.row h.returnReg regs () frame
  exact ⟨ev, hev, hok⟩

/-- An evaluation that succeeds has read the saved registers from their places, and the return
address with them. -/
lemma cfiEval_reads {row : CfaState} {ev : EvalResult Unit} (h : AppliesRow m cie fde pc row)
    (hev : cfiEval m cie fde pc regs M.reader () frame = some ev) (hok : ev.status = .ok) :
    (∀ i, (row.regs i).kind = .offset →
      M.read (slotPlace row regs i) = .ok (ev.regs.regs i)) ∧
      ev.frame.ra = ev.regs.regs ⟨cie.returnReg.toNat, h.returnReg⟩ := by
  have hfixed (c : Unit) (a : UInt64) : (M.reader c a).1 = M.read a := rfl
  obtain ⟨row', hret, table, hrow', hslots, hregs, hframe⟩ :=
    cfiEval_applied hfixed M.read_ne_ok hev hok
  rw [h.row, Except.ok.injEq] at hrow'
  subst hrow'
  rw [hregs, hframe]
  exact ⟨hslots.restored, rfl⟩

lemma RestoresWords.readsWords {row : CfaState}
    (hrestores : RestoresWords m cie fde pc regs frame M₁ M₂) (h : AppliesRow m cie fde pc row)
    (hwords : SameWords row regs M₁ M₂) : ReadsWords row regs M₁ ∧ ReadsWords row regs M₂ := by
  obtain ⟨ev, hev, hok, hword, -⟩ := hrestores.words row h
  have hread₁ := (cfiEval_reads h hev hok).1
  have hread₂ := (cfiEval_reads h (hrestores.same ▸ hev) hok).1
  refine ⟨fun i hi => ⟨_, hword i hi, hread₁ i hi⟩, fun i hi => ⟨_, ?_, hread₂ i hi⟩⟩
  obtain ⟨w, hw₁, hw₂⟩ := hwords i hi
  rw [hw₂, ← hw₁, hword i hi]

lemma restoresWords_of_readsWords
    (hwords : ∀ row, AppliesRow m cie fde pc row → SameWords row regs M₁ M₂)
    (hreads₁ : ∀ row, AppliesRow m cie fde pc row → ReadsWords row regs M₁)
    (hreads₂ : ∀ row, AppliesRow m cie fde pc row → ReadsWords row regs M₂) :
    RestoresWords m cie fde pc regs frame M₁ M₂ := by
  refine ⟨cfiEval_congr (fun row h i c hi => ?_) () frame, fun row h => ?_⟩
  · obtain ⟨w, hw₁, hr₁⟩ := hreads₁ row h i hi
    obtain ⟨w', hw₂, hr₂⟩ := hreads₂ row h i hi
    obtain ⟨v, hv₁, hv₂⟩ := hwords row h i hi
    rw [hw₁, Option.some.injEq] at hv₁
    rw [hw₂, Option.some.injEq] at hv₂
    rw [TargetMem.reader, TargetMem.reader, hr₁, hr₂, hv₁, hv₂]
  · obtain ⟨ev, hev, hok⟩ : ∃ ev, cfiEval m cie fde pc regs M₁.reader () frame = some ev ∧
        ev.status = .ok := (hreads₁ row h).cfiEval_ok h
    obtain ⟨hread, hra⟩ := cfiEval_reads h hev hok
    have hword (i : Fin regsetSlots) (hi : (row.regs i).kind = .offset) :
        M₁.number 4 (slotPlace row regs i) = some (ev.regs.regs i) := by
      obtain ⟨w, hw, hr⟩ := hreads₁ row h i hi
      rw [hw, ← Except.ok.inj ((hread i hi).symm.trans hr)]
    refine ⟨ev, hev, hok, hword, fun hi => ?_⟩
    rw [hra]
    exact hword _ hi

/-- The saved registers of two memories with the same words at their places are these words
exactly when the words behind them are 0 in both. -/
theorem cfiEval_restoresWords_iff
    (hwords : ∀ row, AppliesRow m cie fde pc row → SameWords row regs M₁ M₂) :
    RestoresWords m cie fde pc regs frame M₁ M₂ ↔
      ZeroBehind m cie fde pc regs M₁ ∧ ZeroBehind m cie fde pc regs M₂ := by
  have hzero₁ : ZeroBehind m cie fde pc regs M₁ ↔ _ := zeroBehind_iff fun row h i hi => by
    obtain ⟨w, hw, -⟩ := hwords row h i hi
    exact ⟨w, hw⟩
  have hzero₂ : ZeroBehind m cie fde pc regs M₂ ↔ _ := zeroBehind_iff fun row h i hi => by
    obtain ⟨w, -, hw⟩ := hwords row h i hi
    exact ⟨w, hw⟩
  rw [hzero₁, hzero₂]
  constructor
  · exact fun hrestores => ⟨fun row h => (hrestores.readsWords h (hwords row h)).1,
      fun row h => (hrestores.readsWords h (hwords row h)).2⟩
  · exact fun ⟨hreads₁, hreads₂⟩ => restoresWords_of_readsWords hwords hreads₁ hreads₂

end Words

/-- The programs `DW_CFA_offset r31, 1` and `DW_CFA_offset r30, 2` behind `mipsFrame`. -/
def mipsPrograms : ByteMem := memOf 0x1000 (mipsFrame ++ [0x9f, 1, 0x9e, 2])

/-- A function of 0x40 bytes that saves `r31` only (`size` is 2), or `r31` and `r30` (`size`
is 4). -/
def mipsSaves (size : UInt64) : FdeRecord := ⟨⟨some 0, 0⟩, 16, 0x400100, 0x40, 0x1028, size⟩

/-- A regset of mips32 with this stack pointer in `r29`. -/
def mipsRegs : Regset :=
  ⟨ArchId.mips32.toUInt16, regsetVersion, 0, 0, 0x400120, fun i => if i = 29 then 0x7fff0008 else 0⟩

/-- The stack below it and the word at it: the saved `r30`, the saved `r31`, and `behind`. -/
def mipsStack (fp behind : ℕ) : TargetMem :=
  fun a => (leBytes 4 fp ++ leBytes 4 0x400200 ++ leBytes 4 behind)[(a - 0x7fff0000).toNat]?

def mipsFrameBefore : Frame := ⟨0x400120, 0x7fff0008, 0x7fff0008, 0, 0, []⟩

/-- Two words that lie side by side are read as one register. -/
theorem mipsSaves_contaminated :
    mipsRegs.arch = ArchId.mips32.toUInt16 ∧
      (∀ row, AppliesRow mipsPrograms mipsCieRecord (mipsSaves 4) 0x400120 row →
        SameWords row mipsRegs (mipsStack 0x7fff0100 0) (mipsStack 0x7fff0100 1)) ∧
      (cfiEval mipsPrograms mipsCieRecord (mipsSaves 4) 0x400120 mipsRegs
        (mipsStack 0x7fff0100 0).reader () mipsFrameBefore).map
          (fun ev => (ev.status, ev.frame.ra, ev.regs.regs 30)) =
        some (.ok, 0x400200, 0x4002007fff0100) ∧
      (cfiEval mipsPrograms mipsCieRecord (mipsSaves 4) 0x400120 mipsRegs
        (mipsStack 0x7fff0100 1).reader () mipsFrameBefore).map
          (fun ev => (ev.status, ev.frame.ra, ev.regs.regs 30)) =
        some (.ok, 0x100400200, 0x4002007fff0100) ∧
      ¬ RestoresWords mipsPrograms mipsCieRecord (mipsSaves 4) 0x400120 mipsRegs mipsFrameBefore
        (mipsStack 0x7fff0100 0) (mipsStack 0x7fff0100 1) := by
  have hwords : ∀ row, cfiRow mipsPrograms mipsCieRecord (mipsSaves 4) 0x400120 = .ok row →
      ∀ i, (row.regs i).kind = .offset →
        (mipsStack 0x7fff0100 0).number 4 (slotPlace row mipsRegs i) =
            some (if i = 31 then 0x400200 else 0x7fff0100) ∧
          (mipsStack 0x7fff0100 1).number 4 (slotPlace row mipsRegs i) =
            some (if i = 31 then 0x400200 else 0x7fff0100) := by
    decide +kernel
  have heval₀ : (cfiEval mipsPrograms mipsCieRecord (mipsSaves 4) 0x400120 mipsRegs
      (mipsStack 0x7fff0100 0).reader () mipsFrameBefore).map
        (fun ev => (ev.status, ev.frame.ra, ev.regs.regs 30)) =
      some (.ok, 0x400200, 0x4002007fff0100) := by
    decide +kernel
  have heval₁ : (cfiEval mipsPrograms mipsCieRecord (mipsSaves 4) 0x400120 mipsRegs
      (mipsStack 0x7fff0100 1).reader () mipsFrameBefore).map
        (fun ev => (ev.status, ev.frame.ra, ev.regs.regs 30)) =
      some (.ok, 0x100400200, 0x4002007fff0100) := by
    decide +kernel
  refine ⟨rfl, fun row h i hi => ⟨_, hwords row h.row i hi⟩, heval₀, heval₁, fun hrestores => ?_⟩
  rw [hrestores.same, heval₁] at heval₀
  exact absurd heval₀ (by decide)

/-- Words that have zeros behind them are restored. -/
theorem mipsSaves_restored :
    RestoresWords mipsPrograms mipsCieRecord (mipsSaves 2) 0x400120 mipsRegs mipsFrameBefore
      (mipsStack 0x7fff0100 0) (mipsStack 0 0) := by
  have hwords : ∀ row, cfiRow mipsPrograms mipsCieRecord (mipsSaves 2) 0x400120 = .ok row →
      ∀ i, (row.regs i).kind = .offset →
        (mipsStack 0x7fff0100 0).number 4 (slotPlace row mipsRegs i) = some 0x400200 ∧
          (mipsStack 0 0).number 4 (slotPlace row mipsRegs i) = some 0x400200 := by
    decide +kernel
  have hbehind : ∀ row, cfiRow mipsPrograms mipsCieRecord (mipsSaves 2) 0x400120 = .ok row →
      ∀ i, (row.regs i).kind = .offset →
        (mipsStack 0x7fff0100 0).number 4 (slotPlace row mipsRegs i + 4) = some 0 ∧
          (mipsStack 0 0).number 4 (slotPlace row mipsRegs i + 4) = some 0 := by
    decide +kernel
  exact (cfiEval_restoresWords_iff fun row h i hi => ⟨_, hwords row h.row i hi⟩).mpr
    ⟨fun row h i hi => (hbehind row h.row i hi).1, fun row h i hi => (hbehind row h.row i hi).2⟩

end Dwunw
