import LazyOS.Data.Run
import LazyOS.Memory.PageTables

namespace LazyOS.Memory

open LazyOS.Data

/-! Which directory owns which table.  The tables behind the first
`kernelSharedPdEntries` entries belong to all directories, every other table to the
one directory that points to it. -/

/-- What the hardware finds for a virtual page: the entry of the directory and the
entry of the table, when both are present. -/
def translation (ram : Ram) (directory page : Nat) : Option (Word × Word) :=
  let pdEntry := ram.load directory (page / pagingTotalEntriesPerTable)
  if Present pdEntry then
    let ptEntry := ram.load (tableOf pdEntry) (page % pagingTotalEntriesPerTable)
    if Present ptEntry then some (pdEntry, ptEntry) else none
  else none

def totalPages : Nat := 2 ^ 20

def sharedPages : Nat := kernelSharedPdEntries * pagingTotalEntriesPerTable

structure Owned (s : PagingState) (directories : List Nat) : Prop where
  pages : ∀ block ∈ s.used, IsPage block
  used : ∀ directory ∈ directories, directory ∈ s.used
  tables : ∀ directory ∈ directories, ∀ i < 1024,
    Present (s.ram.load directory i) →
      tableOf (s.ram.load directory i) ∈ s.used ∧
        tableOf (s.ram.load directory i) ∉ directories
  alone : ∀ left ∈ directories, ∀ right ∈ directories, ∀ i < 1024, ∀ j < 1024,
    Present (s.ram.load left i) → Present (s.ram.load right j) →
      tableOf (s.ram.load left i) = tableOf (s.ram.load right j) →
        i = j ∧ (left = right ∨ i < kernelSharedPdEntries)

structure Shared (kernel : Nat) (s : PagingState) (directories : List Nat) :
    Prop where
  kernelIn : kernel ∈ directories
  same : ∀ directory ∈ directories, ∀ i < kernelSharedPdEntries,
    s.ram.load directory i = s.ram.load kernel i
  present : ∀ i < kernelSharedPdEntries, Present (s.ram.load kernel i)

structure SpacesInv (kernel : Nat) (s : PagingState) (directories : List Nat) :
    Prop where
  owned : Owned s directories
  shared : Shared kernel s directories

variable {kernel : Nat} {s after : PagingState} {directories : List Nat}

theorem translation_congr {left right : Ram} {directory other page : Nat}
    (entry : left.load directory (page / pagingTotalEntriesPerTable) =
      right.load other (page / pagingTotalEntriesPerTable))
    (table : Present (right.load other (page / pagingTotalEntriesPerTable)) →
      left.load (tableOf (right.load other (page / pagingTotalEntriesPerTable)))
          (page % pagingTotalEntriesPerTable) =
        right.load (tableOf (right.load other (page / pagingTotalEntriesPerTable)))
          (page % pagingTotalEntriesPerTable)) :
    translation left directory page = translation right other page := by
  unfold translation
  simp only [entry]
  by_cases present :
      Present (right.load other (page / pagingTotalEntriesPerTable))
  · simp only [if_pos present, table present]
  · simp only [if_neg present]

theorem pagingGetPhysical_eq (ram : Ram) (directory : Nat) {virt : Word}
    (aligned : pagingIsAligned virt = true) :
    pagingGetPhysical ram directory virt =
      match translation ram directory (virt.toNat / pagingPageSize) with
      | none => 0
      | some (_, ptEntry) => frameOf ptEntry ||| (virt &&& 0xFFF) := by
  have directoryIndex : virt.toNat / pagingPageSize / pagingTotalEntriesPerTable =
      virt.toNat / (pagingTotalEntriesPerTable * pagingPageSize) := by
    rw [Nat.div_div_eq_div_mul, Nat.mul_comm]
  have tableIndex : virt.toNat / pagingPageSize % pagingTotalEntriesPerTable =
      virt.toNat % (pagingTotalEntriesPerTable * pagingPageSize) / pagingPageSize := by
    rw [Nat.mul_comm, Nat.mod_mul_right_div_self]
  unfold pagingGetPhysical pagingGetIndexes translation
  simp only [aligned, Bool.not_true, Bool.false_eq_true, if_false, directoryIndex,
    tableIndex, tableOf]
  split
  · split <;> rfl
  · rfl

theorem SpacesInv.same_translation (inv : SpacesInv kernel s directories)
    {left right page : Nat} (leftIn : left ∈ directories)
    (rightIn : right ∈ directories) (low : page < sharedPages) :
    translation s.ram left page = translation s.ram right page := by
  have index : page / pagingTotalEntriesPerTable < kernelSharedPdEntries :=
    Nat.div_lt_of_lt_mul (by rwa [Nat.mul_comm])
  apply translation_congr
  · rw [inv.shared.same left leftIn _ index, inv.shared.same right rightIn _ index]
  · intro _
    rfl

theorem lt_of_lt_shared {i : Nat} (bound : i < kernelSharedPdEntries) : i < 1024 := by
  unfold kernelSharedPdEntries at bound
  omega

theorem Owned.congr (owned : Owned s directories) (used : after.used = s.used)
    (entries : ∀ directory ∈ directories, ∀ i < 1024,
      after.ram.load directory i = s.ram.load directory i) :
    Owned after directories := by
  constructor
  · rw [used]
    exact owned.pages
  · rw [used]
    exact owned.used
  · intro directory member i bound
    rw [entries directory member i bound, used]
    exact owned.tables directory member i bound
  · intro left leftIn right rightIn i i_lt j j_lt
    rw [entries left leftIn i i_lt, entries right rightIn j j_lt]
    exact owned.alone left leftIn right rightIn i i_lt j j_lt

theorem SpacesInv.congr (inv : SpacesInv kernel s directories)
    (used : after.used = s.used)
    (entries : ∀ directory ∈ directories, ∀ i < 1024,
      after.ram.load directory i = s.ram.load directory i) :
    SpacesInv kernel after directories := by
  refine ⟨inv.owned.congr used entries, inv.shared.kernelIn, ?_, ?_⟩
  · intro directory member i bound
    rw [entries directory member i (lt_of_lt_shared bound),
      entries kernel inv.shared.kernelIn i (lt_of_lt_shared bound)]
    exact inv.shared.same directory member i bound
  · intro i bound
    rw [entries kernel inv.shared.kernelIn i (lt_of_lt_shared bound)]
    exact inv.shared.present i bound

theorem Owned.load_store_table (owned : Owned s directories) {table index : Nat}
    (value : Word) (tableUsed : table ∈ s.used) (notDirectory : table ∉ directories)
    (index_lt : index < 1024) :
    ∀ directory ∈ directories, ∀ i < 1024,
      (s.store table index value).ram.load directory i =
        s.ram.load directory i := by
  intro directory member i bound
  exact s.ram.load_store_of_page value (owned.pages table tableUsed)
    (owned.pages directory (owned.used directory member)) index_lt bound
    (fun same => notDirectory (same ▸ member))

theorem Owned.translation_store_table (owned : Owned s directories)
    {table index : Nat} (value : Word) (tableUsed : table ∈ s.used)
    (notDirectory : table ∉ directories) (index_lt : index < 1024)
    {directory page : Nat} (member : directory ∈ directories)
    (inside : page < totalPages)
    (apart : ∀ i < 1024, Present (s.ram.load directory i) →
      i = page / pagingTotalEntriesPerTable →
      tableOf (s.ram.load directory i) ≠ table) :
    translation (s.store table index value).ram directory page =
      translation s.ram directory page := by
  have directoryIndex : page / pagingTotalEntriesPerTable < 1024 := by
    unfold totalPages at inside
    unfold pagingTotalEntriesPerTable
    omega
  apply translation_congr
  · exact owned.load_store_table value tableUsed notDirectory index_lt directory
      member _ directoryIndex
  · intro present
    have target := owned.tables directory member _ directoryIndex present
    exact s.ram.load_store_of_page value (owned.pages table tableUsed)
      (owned.pages _ target.1) index_lt (Nat.mod_lt _ (by decide))
      (apart _ directoryIndex present rfl)

theorem kzalloc_cases (heap : PageHeap) (bytes : Nat) (s : PagingState) :
    kzalloc heap bytes s = (0, { s with calls := s.calls + 1 }) ∨
    ∃ block, block ≠ 0 ∧ IsPage block ∧ block ∉ s.used ∧
      kzalloc heap bytes s =
        (block, { s with ram := s.ram.clear block bytes, calls := s.calls + 1 }) := by
  by_cases none : heap.answer s.calls s.used = 0
  · exact .inl (by simp only [kzalloc, if_pos none])
  · refine .inr ⟨_, none, ⟨heap.aligned _ _, heap.inside _ _⟩,
      heap.fresh _ _ none, ?_⟩
    simp only [kzalloc, if_neg none]

theorem pagingSet_bitmap (heap : PageHeap) (directory : Nat)
    (virtualAddr physicalAddr : Word) (s : PagingState) :
    (pagingSet heap directory virtualAddr physicalAddr s).2.bitmap = s.bitmap := by
  unfold pagingSet
  split
  · rfl
  · simp only
    split
    · rfl
    · rcases kzalloc_cases heap (4 * pagingTotalEntriesPerTable) s with
        failed | ⟨block, nonzero, -, -, allocated⟩
      · rw [failed]
        rfl
      · rw [allocated]
        simp only [if_neg nonzero]
        rfl

def PagingState.link (s : PagingState) (directory index block : Nat)
    (flags : Word) : PagingState :=
  { s with
    ram := (s.ram.clear block (4 * pagingTotalEntriesPerTable)).store directory index
      (BitVec.ofNat 32 block ||| flags)
    used := block :: s.used }

theorem PagingState.load_link (s : PagingState) (directory index block : Nat)
    (flags : Word) :
    (s.link directory index block flags).ram.load directory index =
      BitVec.ofNat 32 block ||| flags :=
  Ram.load_store_self ..

section Link

variable {directory index block : Nat} {flags : Word}

theorem Owned.load_link (owned : Owned s directories)
    (member : directory ∈ directories) (index_lt : index < 1024)
    (page : IsPage block) (fresh : block ∉ s.used) {other i : Nat}
    (otherIn : other ∈ s.used) (i_lt : i < 1024) :
    (s.link directory index block flags).ram.load other i =
      if other = directory ∧ i = index then BitVec.ofNat 32 block ||| flags
      else s.ram.load other i := by
  have directoryUsed := owned.used directory member
  have cleared := s.ram.load_clear_of_page page (owned.pages other otherIn)
    (le_refl (4 * pagingTotalEntriesPerTable)) i_lt
    (fun same => fresh (same ▸ otherIn))
  by_cases here : other = directory
  · subst here
    by_cases sameIndex : i = index
    · subst sameIndex
      rw [if_pos ⟨rfl, rfl⟩]
      exact Ram.load_store_self ..
    · rw [if_neg (fun both => sameIndex both.2)]
      exact (Ram.load_store_of_index _ _ sameIndex).trans cleared
  · rw [if_neg (fun both => here both.1)]
    exact (Ram.load_store_of_page _ _ (owned.pages directory directoryUsed)
      (owned.pages other otherIn) index_lt i_lt here).trans cleared

theorem Owned.link (owned : Owned s directories)
    (member : directory ∈ directories) (index_lt : index < 1024)
    (page : IsPage block) (fresh : block ∉ s.used) (low : flags.toNat < 4096) :
    Owned (s.link directory index block flags) directories := by
  have load : ∀ other ∈ directories, ∀ i < 1024,
      (s.link directory index block flags).ram.load other i =
        if other = directory ∧ i = index then BitVec.ofNat 32 block ||| flags
        else s.ram.load other i := fun other otherIn i i_lt =>
    owned.load_link member index_lt page fresh (owned.used other otherIn) i_lt
  have notDirectory : block ∉ directories := fun isDirectory =>
    fresh (owned.used block isDirectory)
  have notTable : ∀ other ∈ directories, ∀ i < 1024,
      Present (s.ram.load other i) → tableOf (s.ram.load other i) ≠ block := by
    intro other otherIn i i_lt present same
    exact fresh (same ▸ (owned.tables other otherIn i i_lt present).1)
  constructor
  · intro other otherUsed
    rcases List.mem_cons.mp otherUsed with rfl | otherUsed
    · exact page
    · exact owned.pages other otherUsed
  · intro other otherIn
    exact List.mem_cons_of_mem _ (owned.used other otherIn)
  · intro other otherIn i i_lt
    rw [load other otherIn i i_lt]
    split
    · intro _
      rw [tableOf_or page low]
      exact ⟨List.mem_cons_self, notDirectory⟩
    · intro present
      obtain ⟨tableUsed, apart⟩ := owned.tables other otherIn i i_lt present
      exact ⟨List.mem_cons_of_mem _ tableUsed, apart⟩
  · intro left leftIn right rightIn i i_lt j j_lt
    rw [load left leftIn i i_lt, load right rightIn j j_lt]
    by_cases isLeft : left = directory ∧ i = index
    · rw [if_pos isLeft, tableOf_or page low]
      by_cases isRight : right = directory ∧ j = index
      · intro _ _ _
        exact ⟨isLeft.2.trans isRight.2.symm, .inl (isLeft.1.trans isRight.1.symm)⟩
      · rw [if_neg isRight]
        intro _ present same
        exact absurd same.symm (notTable right rightIn j j_lt present)
    · rw [if_neg isLeft]
      by_cases isRight : right = directory ∧ j = index
      · rw [if_pos isRight, tableOf_or page low]
        intro present _ same
        exact absurd same (notTable left leftIn i i_lt present)
      · rw [if_neg isRight]
        exact owned.alone left leftIn right rightIn i i_lt j j_lt

theorem Owned.translation_link (owned : Owned s directories)
    (member : directory ∈ directories) (index_lt : index < 1024)
    (page : IsPage block) (fresh : block ∉ s.used)
    {other number : Nat} (otherIn : other ∈ directories) (inside : number < totalPages)
    (different : other ≠ directory) :
    translation (s.link directory index block flags).ram other number =
      translation s.ram other number := by
  have directoryIndex : number / pagingTotalEntriesPerTable < 1024 := by
    unfold totalPages at inside
    unfold pagingTotalEntriesPerTable
    omega
  apply translation_congr
  · rw [owned.load_link member index_lt page fresh (owned.used other otherIn)
      directoryIndex, if_neg fun both => different both.1]
  · intro present
    obtain ⟨tableUsed, notDirectory⟩ :=
      owned.tables other otherIn _ directoryIndex present
    have tableIndex : number % pagingTotalEntriesPerTable < 1024 :=
      Nat.mod_lt _ (by decide)
    rw [owned.load_link member index_lt page fresh tableUsed tableIndex, if_neg]
    rintro ⟨same, -⟩
    exact notDirectory (same ▸ member)

end Link

/-- A step of an operation on `directory` from `s` to `after`: the tables stay
owned as they were, and a step above 128 MiB is not seen from any other
directory. -/
structure Keeps (kernel : Nat) (directories : List Nat) (directory : Nat)
    (high : Prop) (s after : PagingState) : Prop where
  inv : SpacesInv kernel after directories
  apart : high → ∀ other ∈ directories, other ≠ directory → ∀ page < totalPages,
    translation after.ram other page = translation s.ram other page

theorem Keeps.trans {directory : Nat} {first second : Prop} {middle : PagingState}
    (before : Keeps kernel directories directory first s middle)
    (later : Keeps kernel directories directory second middle after) :
    Keeps kernel directories directory (first ∧ second) s after :=
  ⟨later.inv, fun high other otherIn different page inside =>
    (later.apart high.2 other otherIn different page inside).trans
      (before.apart high.1 other otherIn different page inside)⟩

theorem Keeps.mono {directory : Nat} {weak strong : Prop}
    (keeps : Keeps kernel directories directory weak s after)
    (implies : strong → weak) : Keeps kernel directories directory strong s after :=
  ⟨keeps.inv, fun high => keeps.apart (implies high)⟩

theorem SpacesInv.keeps_of_ram (inv : SpacesInv kernel s directories)
    (directory : Nat) (high : Prop) (ram : after.ram = s.ram)
    (used : after.used = s.used) :
    Keeps kernel directories directory high s after := by
  refine ⟨inv.congr used (fun _ _ _ _ => by rw [ram]), ?_⟩
  intro _ other _ _ page _
  rw [ram]

theorem SpacesInv.keeps_store (inv : SpacesInv kernel s directories)
    {directory i index : Nat} (value : Word) (member : directory ∈ directories)
    (i_lt : i < 1024) (index_lt : index < 1024)
    (present : Present (s.ram.load directory i)) :
    Keeps kernel directories directory (kernelSharedPdEntries ≤ i) s
      (s.store (tableOf (s.ram.load directory i)) index value) := by
  obtain ⟨tableUsed, notDirectory⟩ :=
    inv.owned.tables directory member i i_lt present
  refine ⟨inv.congr rfl (inv.owned.load_store_table value tableUsed notDirectory
    index_lt), ?_⟩
  intro high other otherIn different page inside
  apply inv.owned.translation_store_table value tableUsed notDirectory index_lt
    otherIn inside
  intro j j_lt otherPresent _ same
  obtain ⟨rfl, sameDirectory | low⟩ := inv.owned.alone other otherIn directory member
    j j_lt i i_lt otherPresent present same
  · exact different sameDirectory
  · omega

theorem SpacesInv.keeps_link (inv : SpacesInv kernel s directories)
    {directory i block : Nat} {flags : Word} (member : directory ∈ directories)
    (i_lt : i < 1024) (absent : ¬ Present (s.ram.load directory i))
    (page : IsPage block) (fresh : block ∉ s.used) (low : flags.toNat < 4096) :
    Keeps kernel directories directory True s (s.link directory i block flags) := by
  have load : ∀ other ∈ directories, ∀ j < kernelSharedPdEntries,
      (s.link directory i block flags).ram.load other j = s.ram.load other j := by
    intro other otherIn j bound
    rw [inv.owned.load_link member i_lt page fresh (inv.owned.used other otherIn)
      (lt_of_lt_shared bound), if_neg]
    -- Shared entries are present, so the entry linked is not one of them.
    rintro ⟨rfl, rfl⟩
    rw [inv.shared.same other otherIn j bound] at absent
    exact absent (inv.shared.present j bound)
  refine ⟨⟨inv.owned.link member i_lt page fresh low, inv.shared.kernelIn, ?_, ?_⟩, ?_⟩
  · intro other otherIn j bound
    rw [load other otherIn j bound, load kernel inv.shared.kernelIn j bound]
    exact inv.shared.same other otherIn j bound
  · intro j bound
    rw [load kernel inv.shared.kernelIn j bound]
    exact inv.shared.present j bound
  · intro _ other otherIn different number inside
    exact inv.owned.translation_link member i_lt page fresh otherIn inside different

theorem pagingGetIndexes_eq_some {virt : Word} {directoryIndex tableIndex : Nat}
    (indexes : pagingGetIndexes virt = some (directoryIndex, tableIndex)) :
    directoryIndex < 1024 ∧ tableIndex < 1024 ∧
      directoryIndex = virt.toNat / (pagingTotalEntriesPerTable * pagingPageSize) := by
  have bound := virt.isLt
  unfold pagingGetIndexes at indexes
  split at indexes
  · cases indexes
  · obtain ⟨rfl, rfl⟩ := Prod.ext_iff.mp (Option.some.inj indexes)
    unfold pagingTotalEntriesPerTable pagingPageSize
    refine ⟨?_, ?_, rfl⟩ <;> simp only <;> omega

def tableFlags : Word :=
  pagingIsPresent ||| (pagingIsWritable ||| pagingAccessForomAll)

def sharedEnd : Nat := 0x8000000

theorem shared_le_index {virt : Word} (high : sharedEnd ≤ virt.toNat) :
    kernelSharedPdEntries ≤
      virt.toNat / (pagingTotalEntriesPerTable * pagingPageSize) := by
  unfold sharedEnd at high
  unfold kernelSharedPdEntries pagingTotalEntriesPerTable pagingPageSize
  omega

theorem pagingSet_keeps (heap : PageHeap) {directory : Nat}
    (virtualAddr physicalAddr : Word) (inv : SpacesInv kernel s directories)
    (member : directory ∈ directories) :
    Keeps kernel directories directory (sharedEnd ≤ virtualAddr.toNat) s
      (pagingSet heap directory virtualAddr physicalAddr s).2 := by
  unfold pagingSet
  cases indexes : pagingGetIndexes virtualAddr with
  | none => exact inv.keeps_of_ram _ _ rfl rfl
  | some pair =>
      obtain ⟨i, j⟩ := pair
      obtain ⟨i_lt, j_lt, rfl⟩ := pagingGetIndexes_eq_some indexes
      simp only
      by_cases present : Present (s.ram.load directory
          (virtualAddr.toNat / (pagingTotalEntriesPerTable * pagingPageSize)))
      · rw [if_pos present]
        exact (inv.keeps_store physicalAddr member i_lt j_lt present).mono
          shared_le_index
      · rw [if_neg present]
        rcases kzalloc_cases heap (4 * pagingTotalEntriesPerTable) s with
          failed | ⟨block, nonzero, page, fresh, allocated⟩
        · rw [failed]
          exact inv.keeps_of_ram _ _ rfl rfl
        · rw [allocated]
          simp only [if_neg nonzero, BitVec.or_assoc]
          have counted : Keeps kernel directories directory True s
              { s with calls := s.calls + 1 } := inv.keeps_of_ram _ _ rfl rfl
          have linked := counted.inv.keeps_link member i_lt present page fresh
            (show tableFlags.toNat < 4096 by decide)
          have stored := linked.inv.keeps_store physicalAddr member i_lt j_lt (by
            rw [PagingState.load_link]
            exact present_or _ (by decide))
          rw [PagingState.load_link] at stored
          exact ((counted.trans linked).trans stored).mono fun high =>
            ⟨⟨trivial, trivial⟩, shared_le_index high⟩

end LazyOS.Memory
