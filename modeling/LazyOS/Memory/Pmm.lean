import LazyOS.Config
import LazyOS.Data.Bitmap

namespace LazyOS.Memory

open LazyOS.Data

/-! The physical frame allocator of `pmm.c` and the E820 walk of `e820_mmap.c`.
The bitmap is the memory seen from the `bitmap` pointer; only its first
`pmmEntries` bytes belong to the allocator. -/

def freePmmEntry : Byte := 0b00000000

def wholeEntryTakn : Byte := 0b11111111

def pmmEntries : Nat := 131072

def heapStartAddress : Nat := 0x01000000

def calcFrames (size : Nat) : Int :=
  if size ≥ 0x100000000 - 1 then toInt32 (0x100000000 - 0x1)
  else toInt32 ((size + 4095) / 4096 : Nat)

def devideBlocksEntries (frames : Nat) : Nat × Nat :=
  (frames / 8, frames % 8)

/-- The loop that completes the first byte.  `none` is the `return` in its
middle, which leaves `filler` unused. -/
def fillerLoop :
    (remaining fullBlock notFullBlock : Nat) → (filler : Byte) →
      Option (Nat × Nat × Byte)
  | 0, fullBlock, notFullBlock, filler => some (fullBlock, notFullBlock, filler)
  | remaining + 1, fullBlock, notFullBlock, filler =>
      if fullBlock = 0 ∧ notFullBlock = 0 then none
      else
        let (fullBlock, notFullBlock) :=
          if notFullBlock = 0 then (fullBlock - 1, 7)
          else (fullBlock, notFullBlock)
        fillerLoop remaining fullBlock (notFullBlock - 1)
          ((filler >>> 1) ||| 0b10000000)

def bodyLoop : (fullBlock block : Nat) → Bitmap → Nat × Bitmap
  | 0, block, bitmap => (block, bitmap)
  | fullBlock + 1, block, bitmap =>
      let block := (block + 1) % 2 ^ 32
      bodyLoop fullBlock block (Function.update bitmap block wholeEntryTakn)

def headMarker : (notFullBlock : Nat) → (marker : Byte) → Byte
  | 0, marker => marker
  | notFullBlock + 1, marker =>
      headMarker notFullBlock ((marker <<< 1) ||| 0b00000001)

def fillFromTo (bitmap : Bitmap) (base len : Nat) : Bitmap :=
  if len ≤ 0 then bitmap
  else
    let lenInFrames := toUInt32 (calcFrames len)
    -- `start_frame` is a `uint64_t`, `block` a `uint32_t`.
    let startFrame := (calcFrames base % 2 ^ 64).toNat
    let block := startFrame / 8 % 2 ^ 32
    let frameInBlock := startFrame % 8
    let bitmap := bitmap.orByte block (1#8 <<< frameInBlock)
    let lenInFrames := lenInFrames - 1
    if lenInFrames ≤ 0 then bitmap
    else
      let (fullBlock, notFullBlock) := devideBlocksEntries lenInFrames
      match fillerLoop (6 - frameInBlock) fullBlock notFullBlock 0b10000000 with
      | none => bitmap
      | some (fullBlock, notFullBlock, filler) =>
          let bitmap := bitmap.orByte block filler
          let (block, bitmap) := bodyLoop fullBlock block bitmap
          bitmap.orByte ((block + 1) % 2 ^ 32) (headMarker notFullBlock 0)

def manualPrefill (bitmap : Bitmap) : Bitmap :=
  let heapStart := heapStartAddress
  let heapEnd := heapStartAddress + heapSizeBytes
  let bitmap := fillFromTo bitmap 0x0000 0x100000
  let bitmap := fillFromTo bitmap 0x100000 0x100000
  fillFromTo bitmap heapStart heapEnd

/-- `memory` is what the allocation of the bitmap is surrounded by. -/
def initBitmapPmm (memory : Bitmap) : Bitmap :=
  manualPrefill fun index =>
    if index < pmmEntries then freePmmEntry else memory index

def freeByteLoop (bitmap : Bitmap) : (remaining i : Nat) → Nat
  | 0, i => i
  | remaining + 1, i =>
      if bitmap i = 255 then freeByteLoop bitmap remaining (i + 1) else i

def freeBitLoop (inverted : Byte) : (remaining j : Nat) → Nat
  | 0, j => j
  | remaining + 1, j =>
      if (inverted >>> j) &&& 1 ≠ 0 then j
      else freeBitLoop inverted remaining (j + 1)

def getFreePhysicalAddress (bitmap : Bitmap) : Int × Bitmap :=
  let i := freeByteLoop bitmap pmmEntries 0
  if i ≥ pmmEntries then (-noMemory, bitmap)
  else
    let inverted := ~~~(bitmap i)
    let j := freeBitLoop inverted 8 0
    (toInt32 (((i * 8 + j) * 4096 : Nat)), bitmap.orByte i (1#8 <<< j))

def freePhysicalFrame (bitmap : Bitmap) (physicalAddr : Nat) : Bitmap :=
  let frame := physicalAddr / 4096
  let byteIdx := frame / 8
  let bitIdx := frame % 8
  bitmap.andNotByte byteIdx (1#8 <<< bitIdx)

structure E820Entry where
  base : BitVec 64
  length : BitVec 64
  type : BitVec 32
  extended : BitVec 32
deriving DecidableEq

def E820Entry.mark (bitmap : Bitmap) (entry : E820Entry) : Bitmap :=
  -- The arguments narrow from 64 to 32 bits at the call.
  if entry.type ≠ 1 then
    fillFromTo bitmap (toUInt32 entry.base.toNat) (toUInt32 entry.length.toNat)
  else bitmap

structure E820Map where
  cnt : Half
  entries : Nat → E820Entry

def e820Loop (entries : Nat → E820Entry) : (remaining i : Nat) → Bitmap → Bitmap
  | 0, _, bitmap => bitmap
  | remaining + 1, i, bitmap =>
      e820Loop entries remaining (i + 1) ((entries i).mark bitmap)

def getE820Mmap (bitmap : Bitmap) (map : E820Map) : Bitmap :=
  e820Loop map.entries map.cnt.toNat 0 bitmap

end LazyOS.Memory
