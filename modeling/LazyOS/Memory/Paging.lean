import LazyOS.Memory.Pmm

namespace LazyOS.Memory

open LazyOS.Data

/-! Page directories and page tables of `paging.c`: arrays of 1024 words in memory,
reached through their physical addresses. -/

def pagingAccessForomAll : Word := 0b00000100

def pagingIsWritable : Word := 0b00000010

def pagingIsPresent : Word := 0b00000001

def pagingTotalEntriesPerTable : Nat := 1024

def pagingPageSize : Nat := 4096

def kernelSharedPdEntries : Nat := 32

abbrev Ram := Nat → Word

def Ram.load (ram : Ram) (base index : Nat) : Word := ram (base + 4 * index)

def Ram.store (ram : Ram) (base index : Nat) (value : Word) : Ram :=
  Function.update ram (base + 4 * index) value

def Ram.clear (ram : Ram) (base bytes : Nat) : Ram := fun address =>
  if base ≤ address ∧ address < base + bytes then 0 else ram address

/-- The answers of the heap: `answer calls used` is what the call after `calls`
earlier ones returns while the blocks `used` hold tables and directories.  It is 0
when the heap has no memory. -/
structure PageHeap where
  answer : (calls : Nat) → (used : List Nat) → Nat
  aligned : ∀ calls used, pagingPageSize ∣ answer calls used
  inside : ∀ calls used, answer calls used + pagingPageSize ≤ 2 ^ 32
  fresh : ∀ calls used, answer calls used ≠ 0 → answer calls used ∉ used

structure PagingState where
  ram : Ram
  bitmap : Bitmap
  calls : Nat
  used : List Nat

def kzalloc (heap : PageHeap) (bytes : Nat) (s : PagingState) : Nat × PagingState :=
  let block := heap.answer s.calls s.used
  if block = 0 then (0, { s with calls := s.calls + 1 })
  else (block, { s with ram := s.ram.clear block bytes, calls := s.calls + 1 })

def PagingState.use (s : PagingState) (block : Nat) : PagingState :=
  { s with used := block :: s.used }

def PagingState.store (s : PagingState) (base index : Nat) (value : Word) :
    PagingState :=
  { s with ram := s.ram.store base index value }

/-- `entry & PAGING_IS_PRESENT`. -/
def Present (entry : Word) : Prop := entry &&& pagingIsPresent ≠ 0

instance (entry : Word) : Decidable (Present entry) := inferInstanceAs (Decidable (_ ≠ _))

/-- `entry & 0xfffff000`. -/
def frameOf (entry : Word) : Word := entry &&& 0xfffff000

def fillTableLoop (entry : Nat) (offset flags : Word) :
    (remaining j : Nat) → Ram → Ram
  | 0, _, ram => ram
  | remaining + 1, j, ram =>
      fillTableLoop entry offset flags remaining (j + 1)
        (ram.store entry j
          ((offset + BitVec.ofNat 32 (j * pagingPageSize)) ||| flags))

def newTablesLoop (heap : PageHeap) (directory : Nat) (flags : Word) :
    (remaining i : Nat) → (offset : Word) → PagingState → PagingState
  | 0, _, _, s => s
  | remaining + 1, i, offset, s =>
      let (entry, s) := kzalloc heap (4 * pagingTotalEntriesPerTable) s
      let s := s.use entry
      let s := { s with
        ram := fillTableLoop entry offset flags pagingTotalEntriesPerTable 0 s.ram }
      newTablesLoop heap directory flags remaining (i + 1)
        (offset + BitVec.ofNat 32 (pagingTotalEntriesPerTable * pagingPageSize))
        (s.store directory i (BitVec.ofNat 32 entry ||| flags ||| pagingIsWritable))

/-- The pointer returned is that of the structure holding the directory's
address. -/
def pagingNew4gb (heap : PageHeap) (flags : Word) (s : PagingState) :
    Nat × PagingState :=
  let (directory, s) := kzalloc heap (4 * pagingTotalEntriesPerTable) s
  let s := s.use directory
  let s := newTablesLoop heap directory flags pagingTotalEntriesPerTable 0 0 s
  let (ptr, s) := kzalloc heap 4 s
  (ptr, s.store ptr 0 (BitVec.ofNat 32 directory))

def pagingIsAligned (addr : Word) : Bool := addr.toNat % pagingPageSize = 0

def pagingGetIndexes (virtualAddress : Word) : Option (Nat × Nat) :=
  if !pagingIsAligned virtualAddress then none
  else
    some (virtualAddress.toNat / (pagingTotalEntriesPerTable * pagingPageSize),
      virtualAddress.toNat % (pagingTotalEntriesPerTable * pagingPageSize) /
        pagingPageSize)

def pagingSet (heap : PageHeap) (directory : Nat) (virtualAddr physicalAddr : Word)
    (s : PagingState) : Int × PagingState :=
  match pagingGetIndexes virtualAddr with
  | none => (-einvarg, s)
  | some (directoryIndex, tableIndex) =>
      let entry := s.ram.load directory directoryIndex
      if Present entry then
        (0, s.store (frameOf entry).toNat tableIndex physicalAddr)
      else
        let (newTable, s) := kzalloc heap (4 * pagingTotalEntriesPerTable) s
        if newTable = 0 then (-noMemory, s)
        else
          let entry := BitVec.ofNat 32 newTable ||| pagingIsPresent |||
            pagingIsWritable ||| pagingAccessForomAll
          let s := (s.use newTable).store directory directoryIndex entry
          (0, s.store (frameOf entry).toNat tableIndex physicalAddr)

def copyEntriesLoop (directory kernelDirectory : Nat) :
    (remaining i : Nat) → Ram → Ram
  | 0, _, ram => ram
  | remaining + 1, i, ram =>
      copyEntriesLoop directory kernelDirectory remaining (i + 1)
        (ram.store directory i (ram.load kernelDirectory i))

def pagingNewProcessDirectory (heap : PageHeap) (kernelDirectory : Nat)
    (s : PagingState) : Nat × PagingState :=
  let (directory, s) := kzalloc heap (4 * pagingTotalEntriesPerTable) s
  if directory = 0 then (0, s)
  else
    let used := s.used
    let s := s.use directory
    let s := { s with
      ram := copyEntriesLoop directory kernelDirectory kernelSharedPdEntries 0 s.ram }
    let (ptr, s) := kzalloc heap 4 s
    -- The directory is lost to the caller here.
    if ptr = 0 then (0, { s with used := used })
    else (ptr, s.store ptr 0 (BitVec.ofNat 32 directory))

/-- `virt_start + i * PAGING_PAGE_SIZE`. -/
def pageAt (virtStart : Word) (i : Nat) : Word :=
  virtStart + BitVec.ofNat 32 (i * pagingPageSize)

def pageCount (size : Word) : Nat :=
  (size + BitVec.ofNat 32 (pagingPageSize - 1)).toNat / pagingPageSize

/-- `false` when the frames run out. -/
def vmmAllocLoop (heap : PageHeap) (directory : Nat) (virtStart flags : Word) :
    (remaining i : Nat) → PagingState → Bool × PagingState
  | 0, _, s => (true, s)
  | remaining + 1, i, s =>
      let (phys, bitmap) := getFreePhysicalAddress s.bitmap
      let s := { s with bitmap := bitmap }
      if phys = -noMemory then (false, s)
      else
        vmmAllocLoop heap directory virtStart flags remaining (i + 1)
          (pagingSet heap directory (pageAt virtStart i)
            (BitVec.ofInt 32 phys ||| flags) s).2

def vmmAlloc (heap : PageHeap) (directory : Nat) (virtStart size flags : Word)
    (s : PagingState) : Int × PagingState :=
  if !pagingIsAligned virtStart then (-einvarg, s)
  else
    match vmmAllocLoop heap directory virtStart flags (pageCount size) 0 s with
    | (false, s) => (0, s)
    | (true, s) => (toInt32 (pageAt virtStart (pageCount size)).toNat, s)

def freeVmmLoop (directory : Nat) (virtStart : Word) :
    (remaining i : Nat) → PagingState → Int × PagingState
  | 0, _, s => (0, s)
  | remaining + 1, i, s =>
      match pagingGetIndexes (pageAt virtStart i) with
      | none => (-einvarg, s)
      | some (dirIdx, tblIdx) =>
          let pdEntry := s.ram.load directory dirIdx
          if Present pdEntry then
            let table := (frameOf pdEntry).toNat
            let ptEntry := s.ram.load table tblIdx
            if Present ptEntry then
              let s := { s with
                bitmap := freePhysicalFrame s.bitmap (frameOf ptEntry).toNat }
              freeVmmLoop directory virtStart remaining (i + 1)
                (s.store table tblIdx 0)
            else freeVmmLoop directory virtStart remaining (i + 1) s
          else freeVmmLoop directory virtStart remaining (i + 1) s

def freeVmm (directory : Nat) (virtStart size : Word) (s : PagingState) :
    Int × PagingState :=
  if !pagingIsAligned virtStart then (-einvarg, s)
  else freeVmmLoop directory virtStart (pageCount size) 0 s

def pagingGetPhysical (ram : Ram) (directory : Nat) (virt : Word) : Word :=
  match pagingGetIndexes virt with
  | none => 0
  | some (dirIdx, tblIdx) =>
      let pdEntry := ram.load directory dirIdx
      if Present pdEntry then
        let ptEntry := ram.load (frameOf pdEntry).toNat tblIdx
        if Present ptEntry then frameOf ptEntry ||| (virt &&& 0xFFF) else 0
      else 0

end LazyOS.Memory
