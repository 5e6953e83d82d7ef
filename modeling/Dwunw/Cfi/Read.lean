import Dwunw.Status

/-!
The byte readers of `src/dwarf/cfi.c`: `read_uleb`, `read_sleb`, `read_u32`, `read_u64`,
`read_fixed_size` and `read_encoded_pointer`.

A reader gets the cursor and the end as addresses and returns the value together with the
advanced cursor; where the C code leaves the loop with a status, the reader fails with it.
Pointer sums and differences are those of 64-bit words, and the host is little-endian.
-/

namespace Dwunw

/-! ### The pointer encodings -/

def dwEhPeAbsptr : UInt8 := 0x00
def dwEhPeUleb128 : UInt8 := 0x01
def dwEhPeUdata2 : UInt8 := 0x02
def dwEhPeUdata4 : UInt8 := 0x03
def dwEhPeUdata8 : UInt8 := 0x04
def dwEhPeSdata4 : UInt8 := 0x06
def dwEhPeSdata8 : UInt8 := 0x07
def dwEhPePcrel : UInt8 := 0x10

/-! ### LEB128 -/

/-- The loop of `read_uleb`.  The first argument counts the turns that are left before the
shift reaches 64, ten at the start. -/
def readUlebLoop (stop : UInt64) :
    ℕ → UInt64 → UInt64 → ℕ → Reader (UInt64 × UInt64)
  | 0, _, _, _ => .fail .badFormat
  | n + 1, cursor, result, shift =>
      if cursor < stop then do
        let byte ← .byte .entry cursor
        let result := result ||| ((byte &&& 0x7f).toUInt64 <<< UInt64.ofNat shift)
        if byte &&& 0x80 = 0 then pure (result, cursor + 1)
        else if 64 ≤ shift + 7 then .fail .badFormat
        else readUlebLoop stop n (cursor + 1) result (shift + 7)
      else .fail .badFormat

/-- `read_uleb`. -/
def readUleb (cursor stop : UInt64) : Reader (UInt64 × UInt64) :=
  readUlebLoop stop 10 cursor 0 0

/-- The loop of `read_sleb`, with the turns that are left as in `readUlebLoop`.  The shifts
and the negation are those of two's complement. -/
def readSlebLoop (stop : UInt64) :
    ℕ → UInt64 → Int64 → ℕ → Reader (Int64 × UInt64)
  | 0, _, _, _ => .fail .badFormat
  | n + 1, cursor, result, shift =>
      if cursor < stop then do
        let byte ← .byte .entry cursor
        let result := result ||| ((byte &&& 0x7f).toUInt64.toInt64 <<< Int64.ofNat shift)
        if byte &&& 0x80 = 0 then
          if shift + 7 < 64 ∧ byte &&& 0x40 ≠ 0 then
            pure (result ||| -((1 : Int64) <<< Int64.ofNat (shift + 7)), cursor + 1)
          else pure (result, cursor + 1)
        else if 64 ≤ shift + 7 then .fail .badFormat
        else readSlebLoop stop n (cursor + 1) result (shift + 7)
      else .fail .badFormat

/-- `read_sleb`. -/
def readSleb (cursor stop : UInt64) : Reader (Int64 × UInt64) :=
  readSlebLoop stop 10 cursor 0 0

/-! ### Fixed sizes -/

/-- `read_u32`. -/
def readU32 (ptr : UInt64) : Reader UInt32 := do
  let bs ← .bytes .entry 4 ptr
  pure (UInt32.ofNat (leNat bs))

/-- `read_u64`. -/
def readU64 (ptr : UInt64) : Reader UInt64 := do
  let bs ← .bytes .entry 8 ptr
  pure (UInt64.ofNat (leNat bs))

/-- `read_fixed_size`.  The bytes that are left are the pointer difference taken as a
`size_t`, so a cursor past the end leaves a huge number of them. -/
def readFixedSize (cursor stop size : UInt64) : Reader (UInt64 × UInt64) :=
  if stop - cursor < size then .fail .badFormat
  else if size = 8 then do
    let v ← readU64 cursor
    pure (v, cursor + size)
  else if size = 4 then do
    let v ← readU32 cursor
    pure (v.toUInt64, cursor + size)
  else if size = 2 then do
    let bs ← .bytes .entry 2 cursor
    pure (UInt64.ofNat (leNat bs), cursor + size)
  else if size = 1 then do
    let b ← .byte .entry cursor
    pure (b.toUInt64, cursor + size)
  else .fail .badFormat

/-! ### Encoded pointers -/

/-- The `switch (format)` of `read_encoded_pointer`.  The signed formats are read into an
`int64_t` through the same unsigned reader, so nothing extends their sign. -/
def readPointerFormat (format : UInt8) (cursor stop : UInt64) : Reader (UInt64 × UInt64) :=
  if format = dwEhPeUdata8 then readFixedSize cursor stop 8
  else if format = dwEhPeUdata4 then readFixedSize cursor stop 4
  else if format = dwEhPeUdata2 then readFixedSize cursor stop 2
  else if format = dwEhPeUleb128 then readUleb cursor stop
  else if format = dwEhPeSdata4 then readFixedSize cursor stop 4
  else if format = dwEhPeSdata8 then readFixedSize cursor stop 8
  else .fail .notImplemented

/-- The low four bits of an encoding, with `DW_EH_PE_absptr` replaced by
`DW_EH_PE_udata8`. -/
def pointerFormat (encoding : UInt8) : UInt8 :=
  if encoding = dwEhPeAbsptr then dwEhPeUdata8 else encoding &&& 0x0f

/-- What an encoded pointer is relative to. -/
def pointerApplication (encoding : UInt8) : UInt8 :=
  if encoding = dwEhPeAbsptr then 0 else encoding &&& 0x70

/-- `read_encoded_pointer`.  `DW_EH_PE_pcrel` is taken relative to the host address of the
cursor after the value. -/
def readEncodedPointer (encoding : UInt8) (cursor sectionStart stop : UInt64) :
    Reader (UInt64 × UInt64) := do
  let (raw, cursor) ← readPointerFormat (pointerFormat encoding) cursor stop
  if pointerApplication encoding = 0 then pure (raw + 0, cursor)
  else if pointerApplication encoding = dwEhPePcrel then
    pure (raw + (sectionStart + (cursor - sectionStart)), cursor)
  else .fail .notImplemented

end Dwunw
