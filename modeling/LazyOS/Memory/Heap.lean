import LazyOS.Config
import LazyOS.Data.Word

namespace LazyOS.Memory

open LazyOS.Data

/-! The block heap of `heap.c`.  The table is the memory seen from the `entries`
pointer, so an index outside `[0, totalEntries)` reads and writes whatever lies
beside the table, as it does in the kernel. -/

def heapBlockTableEntryTaken : Byte := 0x01

def heapBlockTableEntryFree : Byte := 0x00

def heapBlockHasNext : Byte := 0b10000000

def heapBlockIsFirst : Byte := 0b01000000

structure HeapTable where
  entries : Int → Byte
  totalEntries : Nat

structure Heap where
  table : HeapTable
  startAddr : Nat

def Heap.setEntries (heap : Heap) (entries : Int → Byte) : Heap :=
  { heap with table := { heap.table with entries := entries } }

@[simp] theorem Heap.setEntries_entries (heap : Heap) (entries : Int → Byte) :
    (heap.setEntries entries).table.entries = entries := rfl

@[simp] theorem Heap.setEntries_totalEntries (heap : Heap)
    (entries : Int → Byte) :
    (heap.setEntries entries).table.totalEntries = heap.table.totalEntries := rfl

@[simp] theorem Heap.setEntries_startAddr (heap : Heap) (entries : Int → Byte) :
    (heap.setEntries entries).startAddr = heap.startAddr := rfl

def memset (memory : Int → Byte) (c : Byte) (size : Nat) : Int → Byte :=
  fun i => if 0 ≤ i ∧ i < size then c else memory i

def heapValidateTable (ptr stop : Nat) (table : HeapTable) : Int :=
  let tableSize := toUInt32 (stop - ptr)
  let totalBlocks := tableSize / heapBlockSize
  if table.totalEntries ≠ totalBlocks then -einvarg else 0

def heapValidateAlignment (ptr : Nat) : Bool :=
  ptr % heapBlockSize == 0

def createHeap (ptr stop : Nat) (table : HeapTable) : Int × Heap :=
  -- The verdict on the alignment is overwritten before anything reads it.
  let _res : Int :=
    if !heapValidateAlignment ptr || !heapValidateAlignment stop then
      -einvarg
    else 0
  let res := heapValidateTable ptr stop table
  let entries :=
    if res < 0 then table.entries
    else memset table.entries heapBlockTableEntryFree table.totalEntries
  (res, { table := { table with entries := entries }, startAddr := ptr })

def heapAligneValueToUpper (val : Nat) : Nat :=
  if val % heapBlockSize = 0 then val
  else (val - val % heapBlockSize + heapBlockSize) % 2 ^ 32

def heapGetEntryType (entry : Byte) : Byte := entry &&& 0x0f

def heapGetStartBlockLoop (table : HeapTable) (totalBlocks : Nat) :
    (remaining i currentBlock : Nat) → (startBlock : Int) → Int
  | 0, _, _, startBlock => startBlock
  | remaining + 1, i, currentBlock, startBlock =>
      if heapGetEntryType (table.entries i) ≠ heapBlockTableEntryFree then
        heapGetStartBlockLoop table totalBlocks remaining (i + 1) 0 (-1)
      else
        let startBlock := if startBlock = -1 then toInt32 i else startBlock
        if currentBlock + 1 = totalBlocks then startBlock
        else
          heapGetStartBlockLoop table totalBlocks remaining (i + 1)
            (currentBlock + 1) startBlock

def heapGetStartBlock (heap : Heap) (totalBlocks : Nat) : Int :=
  let startBlock :=
    heapGetStartBlockLoop heap.table totalBlocks heap.table.totalEntries 0 0 (-1)
  if startBlock = -1 then -noMemory else startBlock

def heapBlockToAddress (heap : Heap) (block : Nat) : Nat :=
  toUInt32 (heap.startAddr + block * heapBlockSize)

/-- The marking loop: `entry` is what the next block receives, and is already
chosen when the block before it is written. -/
def heapMarkBlocksTakenLoop (endBlock : Int) :
    (remaining : Nat) → (i : Int) → (entry : Byte) → (Int → Byte) → Int → Byte
  | 0, _, _, entries => entries
  | remaining + 1, i, entry, entries =>
      heapMarkBlocksTakenLoop endBlock remaining (i + 1)
        (if i ≠ endBlock then heapBlockTableEntryTaken ||| heapBlockHasNext
          else heapBlockTableEntryTaken)
        (Function.update entries i entry)

def heapMarkBlocksTaken (heap : Heap) (startBlock totalBlocks : Nat) : Heap :=
  let endBlock := toInt32 ((startBlock : Int) + totalBlocks - 1)
  let first := toInt32 startBlock
  let entry :=
    if 1 < totalBlocks then
      heapBlockTableEntryTaken ||| heapBlockIsFirst ||| heapBlockHasNext
    else heapBlockTableEntryTaken ||| heapBlockIsFirst
  heap.setEntries
    (heapMarkBlocksTakenLoop endBlock (endBlock - first + 1).toNat first entry
      heap.table.entries)

def heapMallocBlocks (heap : Heap) (totalBlocks : Nat) : Nat × Heap :=
  let startBlock := heapGetStartBlock heap totalBlocks
  if startBlock < 0 then (0, heap)
  else
    (heapBlockToAddress heap startBlock.toNat,
      heapMarkBlocksTaken heap startBlock.toNat totalBlocks)

def heapMalloc (heap : Heap) (size : Nat) : Nat × Heap :=
  let alignedSize := heapAligneValueToUpper size
  let totalBlocks := alignedSize / heapBlockSize
  heapMallocBlocks heap totalBlocks

def heapAddressToBlock (heap : Heap) (address : Nat) : Int :=
  (toInt32 ((address : Int) - heap.startAddr)).tdiv heapBlockSize

def heapMarkBlocksFreeLoop :
    (remaining : Nat) → (i : Int) → (Int → Byte) → Int → Byte
  | 0, _, entries => entries
  | remaining + 1, i, entries =>
      let entry := entries i
      let entries := Function.update entries i heapBlockTableEntryFree
      if entry &&& heapBlockHasNext = 0 then entries
      else heapMarkBlocksFreeLoop remaining (i + 1) entries

def heapMarkBlocksFree (heap : Heap) (startingBlock : Int) : Heap :=
  heap.setEntries
    (heapMarkBlocksFreeLoop
      (toInt32 heap.table.totalEntries - startingBlock).toNat startingBlock
      heap.table.entries)

def heapFree (heap : Heap) (ptr : Nat) : Heap :=
  heapMarkBlocksFree heap (heapAddressToBlock heap ptr)

end LazyOS.Memory
