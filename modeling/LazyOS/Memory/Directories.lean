import LazyOS.Memory.AddressSpaces

namespace LazyOS.Memory

open LazyOS.Data

/-! Building the boot directory, and process directories from it. -/

variable {kernel : Nat} {s after : PagingState} {directories : List Nat}

theorem copyEntriesLoop_load {directory source : Nat} (page : IsPage directory)
    (sourcePage : IsPage source) (different : source ≠ directory)
    (remaining i : Nat) (inside : i + remaining ≤ 1024) (ram : Ram) {other j : Nat}
    (otherPage : IsPage other) (j_lt : j < 1024) :
    (copyEntriesLoop directory source remaining i ram).load other j =
      if other = directory ∧ i ≤ j ∧ j < i + remaining then ram.load source j
      else ram.load other j := by
  induction remaining generalizing i ram with
  | zero =>
      rw [if_neg (by omega)]
      rfl
  | succ remaining ih =>
      simp only [copyEntriesLoop]
      rw [ih (i + 1) (by omega), ram.load_store_of_page _ page sourcePage (by omega)
        j_lt different]
      by_cases here : other = directory
      · subst here
        by_cases index : j = i
        · subst index
          rw [if_neg (by omega), if_pos ⟨rfl, by omega⟩, Ram.load_store_self]
        · rw [Ram.load_store_of_index _ _ index]
          by_cases later : i + 1 ≤ j ∧ j < i + 1 + remaining
          · rw [if_pos ⟨rfl, later⟩, if_pos ⟨rfl, by omega⟩]
          · rw [if_neg (fun both => later both.2), if_neg (by omega)]
      · rw [if_neg (fun both => here both.1), if_neg (fun both => here both.1),
          ram.load_store_of_page _ page otherPage (by omega) j_lt here]

/-- Every entry that is present was the entry of an earlier directory, the same one or
one that shares it. -/
theorem SpacesInv.origin (inv : SpacesInv kernel s directories) {directory : Nat}
    (kept : ∀ block ∈ s.used, ∀ j < 1024,
      after.ram.load block j = s.ram.load block j)
    (copied : ∀ j < 1024, after.ram.load directory j =
      if j < kernelSharedPdEntries then s.ram.load kernel j else 0)
    {other : Nat} (otherIn : other ∈ directory :: directories) {j : Nat} (j_lt : j < 1024)
    (present : Present (after.ram.load other j)) :
    ∃ source ∈ directories, after.ram.load other j = s.ram.load source j ∧
      (source = other ∨ j < kernelSharedPdEntries) := by
  rcases List.mem_cons.mp otherIn with rfl | otherOld
  · have entry := copied j j_lt
    by_cases bound : j < kernelSharedPdEntries
    · rw [if_pos bound] at entry
      exact ⟨kernel, inv.shared.kernelIn, entry, .inr bound⟩
    · rw [entry, if_neg bound] at present
      exact absurd present not_present_zero
  · exact ⟨other, otherOld, kept other (inv.owned.used other otherOld) j j_lt, .inl rfl⟩

theorem SpacesInv.extend (inv : SpacesInv kernel s directories) {directory : Nat}
    (page : IsPage directory) (fresh : directory ∉ s.used)
    (used : after.used = directory :: s.used)
    (kept : ∀ block ∈ s.used, ∀ j < 1024,
      after.ram.load block j = s.ram.load block j)
    (copied : ∀ j < 1024, after.ram.load directory j =
      if j < kernelSharedPdEntries then s.ram.load kernel j else 0) :
    SpacesInv kernel after (directory :: directories) := by
  have kernelIn := inv.shared.kernelIn
  have entries : ∀ other ∈ directories, ∀ j < 1024,
      after.ram.load other j = s.ram.load other j :=
    fun other otherIn => kept other (inv.owned.used other otherIn)
  refine ⟨⟨?_, ?_, ?_, ?_⟩, ⟨List.mem_cons_of_mem _ kernelIn, ?_, ?_⟩⟩
  · rw [used]
    intro block blockUsed
    rcases List.mem_cons.mp blockUsed with rfl | blockUsed
    · exact page
    · exact inv.owned.pages block blockUsed
  · rw [used]
    intro other otherIn
    rcases List.mem_cons.mp otherIn with rfl | otherIn
    · exact List.mem_cons_self
    · exact List.mem_cons_of_mem _ (inv.owned.used other otherIn)
  · rw [used]
    intro other otherIn j j_lt present
    obtain ⟨source, sourceIn, entry, -⟩ := inv.origin kept copied otherIn j_lt present
    rw [entry] at present ⊢
    obtain ⟨tableUsed, notDirectory⟩ := inv.owned.tables source sourceIn j j_lt present
    refine ⟨List.mem_cons_of_mem _ tableUsed, fun isDirectory => ?_⟩
    rcases List.mem_cons.mp isDirectory with same | isDirectory
    · exact fresh (same ▸ tableUsed)
    · exact notDirectory isDirectory
  · intro left leftIn right rightIn i i_lt j j_lt leftPresent rightPresent same
    obtain ⟨leftSource, leftOld, leftEntry, leftFrom⟩ :=
      inv.origin kept copied leftIn i_lt leftPresent
    obtain ⟨rightSource, rightOld, rightEntry, rightFrom⟩ :=
      inv.origin kept copied rightIn j_lt rightPresent
    rw [leftEntry] at leftPresent same
    rw [rightEntry] at rightPresent same
    obtain ⟨rfl, sources⟩ := inv.owned.alone leftSource leftOld rightSource rightOld i i_lt
      j j_lt leftPresent rightPresent same
    refine ⟨rfl, ?_⟩
    rcases leftFrom with rfl | bound
    · rcases rightFrom with rfl | bound
      · exact sources
      · exact .inr bound
    · exact .inr bound
  · intro other otherIn i bound
    rw [entries kernel kernelIn i (lt_of_lt_shared bound)]
    rcases List.mem_cons.mp otherIn with rfl | otherIn
    · rw [copied i (lt_of_lt_shared bound), if_pos bound]
    · rw [entries other otherIn i (lt_of_lt_shared bound)]
      exact inv.shared.same other otherIn i bound
  · intro i bound
    rw [entries kernel kernelIn i (lt_of_lt_shared bound)]
    exact inv.shared.present i bound

theorem Owned.translation_of_kept (owned : Owned s directories)
    (kept : ∀ block ∈ s.used, ∀ j < 1024,
      after.ram.load block j = s.ram.load block j)
    {directory page : Nat} (member : directory ∈ directories)
    (inside : page < totalPages) :
    translation after.ram directory page = translation s.ram directory page := by
  have directoryIndex : page / pagingTotalEntriesPerTable < 1024 := by
    unfold totalPages at inside
    unfold pagingTotalEntriesPerTable
    omega
  apply translation_congr
  · exact kept directory (owned.used directory member) _ directoryIndex
  · intro present
    exact kept _ (owned.tables directory member _ directoryIndex present).1 _
      (Nat.mod_lt _ (by decide))

theorem toNat_of_isPage {block : Nat} (page : IsPage block) :
    (BitVec.ofNat 32 block).toNat = block := by
  have inside := page.inside
  unfold pagingPageSize at inside
  rw [BitVec.toNat_ofNat]
  omega

theorem load_pointer (ram : Ram) {ptr block j : Nat} (value : Word)
    (ptrPage : IsPage ptr) (page : IsPage block) (different : block ≠ ptr)
    (j_lt : j < 1024) :
    ((ram.clear ptr 4).store ptr 0 value).load block j = ram.load block j := by
  rw [Ram.load_store_of_page _ _ ptrPage page (by omega) j_lt different,
    Ram.load_clear_of_page _ ptrPage page (by decide) j_lt different]

def directoryRam (kernel directory : Nat) (ram : Ram) : Ram :=
  copyEntriesLoop directory kernel kernelSharedPdEntries 0
    (ram.clear directory (4 * pagingTotalEntriesPerTable))

theorem directoryRam_load {directory : Nat} (page : IsPage directory)
    (kernelPage : IsPage kernel) (different : kernel ≠ directory) (ram : Ram)
    {block j : Nat} (blockPage : IsPage block) (j_lt : j < 1024) :
    (directoryRam kernel directory ram).load block j =
      if block = directory then
        if j < kernelSharedPdEntries then ram.load kernel j else 0
      else ram.load block j := by
  unfold directoryRam
  rw [copyEntriesLoop_load page kernelPage different _ _ (by decide) _ blockPage j_lt]
  by_cases here : block = directory
  · subst here
    rw [if_pos rfl, Ram.load_clear_self _ _ j_lt,
      Ram.load_clear_of_page _ page kernelPage (by decide) j_lt different]
    simp
  · rw [if_neg here, if_neg (fun both => here both.1),
      Ram.load_clear_of_page _ page blockPage (by decide) j_lt here]

theorem pagingNewProcessDirectory_cases (heap : PageHeap) (kernel : Nat)
    (s : PagingState) :
    pagingNewProcessDirectory heap kernel s = (0, { s with calls := s.calls + 1 }) ∨
    ∃ directory, directory ≠ 0 ∧ IsPage directory ∧ directory ∉ s.used ∧
      (pagingNewProcessDirectory heap kernel s =
          (0, { s with
            ram := directoryRam kernel directory s.ram
            calls := s.calls + 1 + 1 }) ∨
        ∃ ptr, ptr ≠ 0 ∧ IsPage ptr ∧ ptr ∉ directory :: s.used ∧
          pagingNewProcessDirectory heap kernel s =
            (ptr, { s with
              ram := ((directoryRam kernel directory s.ram).clear ptr 4).store ptr 0
                (BitVec.ofNat 32 directory)
              calls := s.calls + 1 + 1
              used := directory :: s.used })) := by
  rcases kzalloc_cases heap (4 * pagingTotalEntriesPerTable) s with
    failed | ⟨directory, nonzero, page, fresh, allocated⟩
  · refine .inl ?_
    unfold pagingNewProcessDirectory
    rw [failed]
    rfl
  · refine .inr ⟨directory, nonzero, page, fresh, ?_⟩
    rcases kzalloc_cases heap 4
        ⟨directoryRam kernel directory s.ram, s.bitmap, s.calls + 1,
          directory :: s.used⟩ with
      failed | ⟨ptr, ptrNonzero, ptrPage, ptrFresh, ptrAllocated⟩
    · refine .inl ?_
      unfold directoryRam at failed
      simp only [pagingNewProcessDirectory, allocated, if_neg nonzero,
        PagingState.use, failed, if_true]
      rfl
    · refine .inr ⟨ptr, ptrNonzero, ptrPage, ptrFresh, ?_⟩
      unfold directoryRam at ptrAllocated
      simp only [pagingNewProcessDirectory, allocated, if_neg nonzero,
        PagingState.use, ptrAllocated, if_neg ptrNonzero]
      rfl

theorem pagingNewProcessDirectory_bitmap (heap : PageHeap) (kernel : Nat)
    (s : PagingState) :
    (pagingNewProcessDirectory heap kernel s).2.bitmap = s.bitmap := by
  rcases pagingNewProcessDirectory_cases heap kernel s with
    failed | ⟨_, -, -, -, failed | ⟨_, -, -, -, returned⟩⟩
  · rw [failed]
  · rw [failed]
  · rw [returned]

/-- Either no directory is returned, or one more directory is in use; nothing in
the blocks used before changes. -/
theorem pagingNewProcessDirectory_spec (heap : PageHeap)
    (inv : SpacesInv kernel s directories) :
    ∃ ptr after, pagingNewProcessDirectory heap kernel s = (ptr, after) ∧
      (∀ block ∈ s.used, ∀ j < 1024,
        after.ram.load block j = s.ram.load block j) ∧
      (ptr = 0 ∧ SpacesInv kernel after directories ∨
        ptr ≠ 0 ∧ SpacesInv kernel after
          ((after.ram.load ptr 0).toNat :: directories)) := by
  have kernelUsed := inv.owned.used kernel inv.shared.kernelIn
  have kernelPage := inv.owned.pages kernel kernelUsed
  rcases pagingNewProcessDirectory_cases heap kernel s with
    failed | ⟨directory, -, page, fresh, result⟩
  · exact ⟨0, _, failed, fun _ _ _ _ => rfl,
      .inl ⟨rfl, inv.congr rfl fun _ _ _ _ => rfl⟩⟩
  · have notKernel : kernel ≠ directory := fun same => fresh (same ▸ kernelUsed)
    have kept : ∀ block ∈ s.used, ∀ j < 1024,
        (directoryRam kernel directory s.ram).load block j = s.ram.load block j := by
      intro block blockUsed j j_lt
      rw [directoryRam_load page kernelPage notKernel _
        (inv.owned.pages block blockUsed) j_lt,
        if_neg fun same : block = directory => fresh (same ▸ blockUsed)]
    rcases result with failed | ⟨ptr, ptrNonzero, ptrPage, ptrFresh, returned⟩
    · exact ⟨0, _, failed, kept, .inl ⟨rfl, inv.congr rfl fun other otherIn =>
        kept other (inv.owned.used other otherIn)⟩⟩
    · rw [List.mem_cons, not_or] at ptrFresh
      have keptAll : ∀ block ∈ s.used, ∀ j < 1024,
          (((directoryRam kernel directory s.ram).clear ptr 4).store ptr 0
            (BitVec.ofNat 32 directory)).load block j = s.ram.load block j := by
        intro block blockUsed j j_lt
        rw [load_pointer _ _ ptrPage (inv.owned.pages block blockUsed)
          (fun same => ptrFresh.2 (same ▸ blockUsed)) j_lt, kept block blockUsed j j_lt]
      refine ⟨ptr, _, returned, keptAll, .inr ⟨ptrNonzero, ?_⟩⟩
      rw [Ram.load_store_self, toNat_of_isPage page]
      refine inv.extend page fresh rfl keptAll ?_
      intro j j_lt
      rw [load_pointer _ _ ptrPage page (Ne.symm ptrFresh.1) j_lt,
        directoryRam_load page kernelPage notKernel _ page j_lt, if_pos rfl]

theorem fillTableLoop_load {table : Nat} (page : IsPage table) (offset flags : Word)
    (remaining i : Nat) (inside : i + remaining ≤ 1024) (ram : Ram) {other j : Nat}
    (otherPage : IsPage other) (j_lt : j < 1024) (different : other ≠ table) :
    (fillTableLoop table offset flags remaining i ram).load other j =
      ram.load other j := by
  induction remaining generalizing i ram with
  | zero => rfl
  | succ remaining ih =>
      simp only [fillTableLoop]
      rw [ih (i + 1) (by omega),
        ram.load_store_of_page _ page otherPage (by omega) j_lt different]

theorem fillTableLoop_entry (table : Nat) (offset flags : Word) (remaining i : Nat)
    (ram : Ram) (j : Nat) :
    (fillTableLoop table offset flags remaining i ram).load table j =
      if i ≤ j ∧ j < i + remaining then
        (offset + BitVec.ofNat 32 (j * pagingPageSize)) ||| flags
      else ram.load table j := by
  induction remaining generalizing i ram with
  | zero =>
      rw [if_neg (by omega)]
      rfl
  | succ remaining ih =>
      simp only [fillTableLoop]
      rw [ih (i + 1)]
      by_cases here : j = i
      · subst here
        rw [if_neg (by omega), if_pos (by omega), Ram.load_store_self]
      · rw [Ram.load_store_of_index _ _ here]
        by_cases later : i + 1 ≤ j ∧ j < i + 1 + remaining
        · rw [if_pos later, if_pos (by omega)]
        · rw [if_neg later, if_neg (by omega)]

/-- The heap has memory for the boot directory, its tables and its structure: the
first blocks can all be had. -/
def HasBootMemory (heap : PageHeap) (calls : Nat) : Prop :=
  ∀ used : List Nat, used.length ≤ 1025 → heap.answer (calls + used.length) used ≠ 0

theorem kzalloc_of_memory (heap : PageHeap) (bytes : Nat) {s : PagingState}
    (memory : heap.answer s.calls s.used ≠ 0) :
    ∃ block, block ≠ 0 ∧ IsPage block ∧ block ∉ s.used ∧
      kzalloc heap bytes s =
        (block, { s with ram := s.ram.clear block bytes, calls := s.calls + 1 }) := by
  rcases kzalloc_cases heap bytes s with failed | allocated
  · have none := congrArg Prod.fst failed
    simp only [kzalloc, if_neg memory] at none
    exact absurd none memory
  · exact allocated

theorem kzalloc_answer (heap : PageHeap) (bytes : Nat) (s : PagingState) :
    (kzalloc heap bytes s).1 = heap.answer s.calls s.used := by
  unfold kzalloc
  by_cases none : heap.answer s.calls s.used = 0
  · simp only [none, if_true]
  · simp only [none, if_false]

structure AddsTable (heap : PageHeap) (directory i : Nat) (offset flags : Word)
    (s after : PagingState) (table : Nat) : Prop where
  answered : table = heap.answer s.calls s.used
  page : IsPage table
  fresh : table ∉ s.used
  used : after.used = table :: s.used
  calls : after.calls = s.calls + 1
  entries : ∀ j < 1024, after.ram.load directory j =
    if j = i then BitVec.ofNat 32 table ||| (flags ||| pagingIsWritable)
    else s.ram.load directory j
  words : ∀ j < 1024, after.ram.load table j =
    (offset + BitVec.ofNat 32 (j * pagingPageSize)) ||| flags
  others : ∀ block ∈ s.used, IsPage block → block ≠ directory → ∀ j < 1024,
    after.ram.load block j = s.ram.load block j

theorem newTablesLoop_turn {heap : PageHeap} {directory : Nat} {s : PagingState}
    (flags : Word) (remaining i : Nat) (offset : Word) (page : IsPage directory)
    (used : directory ∈ s.used) (i_lt : i < 1024)
    (served : heap.answer s.calls s.used ≠ 0) :
    ∃ table after, AddsTable heap directory i offset flags s after table ∧
      newTablesLoop heap directory flags (remaining + 1) i offset s =
        newTablesLoop heap directory flags remaining (i + 1)
          (offset + BitVec.ofNat 32 (pagingTotalEntriesPerTable * pagingPageSize))
          after := by
  obtain ⟨table, -, tablePage, fresh, allocated⟩ :=
    kzalloc_of_memory heap (4 * pagingTotalEntriesPerTable) served
  have answered : table = heap.answer s.calls s.used := by
    rw [← kzalloc_answer heap (4 * pagingTotalEntriesPerTable) s, allocated]
  have apart : directory ≠ table := fun same => fresh (same ▸ used)
  refine ⟨table, ⟨(fillTableLoop table offset flags pagingTotalEntriesPerTable 0
      (s.ram.clear table (4 * pagingTotalEntriesPerTable))).store directory i
        (BitVec.ofNat 32 table ||| (flags ||| pagingIsWritable)),
    s.bitmap, s.calls + 1, table :: s.used⟩,
    ⟨answered, tablePage, fresh, rfl, rfl, ?_, ?_, ?_⟩, ?_⟩
  · intro j j_lt
    by_cases here : j = i
    · subst here
      rw [if_pos rfl, Ram.load_store_self]
    · rw [if_neg here, Ram.load_store_of_index _ _ here, fillTableLoop_load tablePage _ _
        _ _ (by decide) _ page j_lt apart,
        Ram.load_clear_of_page _ tablePage page (by decide) j_lt apart]
  · intro j j_lt
    have inside : 0 ≤ j ∧ j < 0 + pagingTotalEntriesPerTable := by
      unfold pagingTotalEntriesPerTable
      omega
    rw [Ram.load_store_of_page _ _ page tablePage i_lt j_lt apart.symm,
      fillTableLoop_entry, if_pos inside]
  · intro block blockUsed blockPage notDirectory j j_lt
    have different : block ≠ table := fun same => fresh (same ▸ blockUsed)
    rw [Ram.load_store_of_page _ _ page blockPage i_lt j_lt notDirectory,
      fillTableLoop_load tablePage _ _ _ _ (by decide) _ blockPage j_lt different,
      Ram.load_clear_of_page _ tablePage blockPage (by decide) j_lt different]
  · simp only [newTablesLoop, allocated, PagingState.use, PagingState.store,
      BitVec.or_assoc]

structure Building (directory calls i : Nat) (s : PagingState) : Prop where
  owned : Owned s [directory]
  present : ∀ j < i, Present (s.ram.load directory j)
  count : s.used.length = i + 1
  called : s.calls = calls + s.used.length

theorem writable_low {flags : Word} (low : flags.toNat < 4096) :
    (flags ||| pagingIsWritable).toNat < 4096 := by
  rw [BitVec.toNat_or]
  exact Nat.or_lt_two_pow (n := 12) low (by decide)

theorem building_start (s : PagingState) {directory : Nat} (page : IsPage directory) :
    Building directory s.calls 0
      { s with
        ram := s.ram.clear directory (4 * pagingTotalEntriesPerTable)
        calls := s.calls + 1
        used := [directory] } := by
  have absent : ∀ other ∈ [directory], ∀ i < 1024, ¬ Present ((s.ram.clear directory
      (4 * pagingTotalEntriesPerTable)).load other i) := by
    intro other otherIn i i_lt
    obtain rfl := List.mem_singleton.mp otherIn
    rw [Ram.load_clear_self _ _ i_lt]
    exact not_present_zero
  refine ⟨⟨?_, fun _ member => member, ?_, ?_⟩, ?_, rfl, rfl⟩
  · intro block member
    obtain rfl := List.mem_singleton.mp member
    exact page
  · intro other otherIn i i_lt present
    exact absurd present (absent other otherIn i i_lt)
  · intro left leftIn right rightIn i i_lt j j_lt present
    exact absurd present (absent left leftIn i i_lt)
  · intro j bound
    omega

theorem newTablesLoop_builds {heap : PageHeap} {directory calls : Nat} {flags : Word}
    (memory : HasBootMemory heap calls) (low : flags.toNat < 4096)
    (present : Present flags) (remaining i : Nat) (offset : Word)
    (all : i + remaining = 1024) (building : Building directory calls i s) :
    Building directory calls 1024
      (newTablesLoop heap directory flags remaining i offset s) := by
  induction remaining generalizing i offset s with
  | zero =>
      obtain rfl : i = 1024 := by omega
      exact building
  | succ remaining ih =>
      have served : heap.answer s.calls s.used ≠ 0 := by
        rw [building.called]
        exact memory s.used (by rw [building.count]; omega)
      have i_lt : i < 1024 := by omega
      have directoryUsed := building.owned.used directory List.mem_cons_self
      obtain ⟨table, after, adds, turn⟩ := newTablesLoop_turn flags remaining i offset
        (building.owned.pages directory directoryUsed) directoryUsed i_lt served
      rw [turn]
      refine ih (i + 1) _ (by omega) ⟨?_, ?_, ?_, ?_⟩
      · refine (building.owned.link List.mem_cons_self i_lt adds.page adds.fresh
          (writable_low low)).congr adds.used ?_
        intro other otherIn j j_lt
        obtain rfl := List.mem_singleton.mp otherIn
        rw [adds.entries j j_lt, building.owned.load_link List.mem_cons_self i_lt
          adds.page adds.fresh directoryUsed j_lt]
        simp only [true_and]
      · intro j bound
        rw [adds.entries j (by omega)]
        split
        · rw [BitVec.or_comm flags]
          exact present_or _ (present_or _ present)
        · exact building.present j (by omega)
      · rw [adds.used, List.length_cons, building.count]
      · rw [adds.used, adds.calls, List.length_cons, building.called]
        omega

theorem pagingNew4gb_spec {heap : PageHeap} {flags : Word} (blank : s.used = [])
    (memory : HasBootMemory heap s.calls) (low : flags.toNat < 4096)
    (present : Present flags) :
    ∃ ptr after, pagingNew4gb heap flags s = (ptr, after) ∧
      SpacesInv (after.ram.load ptr 0).toNat after [(after.ram.load ptr 0).toNat] := by
  have answered : heap.answer s.calls s.used ≠ 0 := by
    rw [blank]
    exact memory [] (by simp)
  obtain ⟨directory, -, page, -, allocated⟩ :=
    kzalloc_of_memory heap (4 * pagingTotalEntriesPerTable) answered
  have built := newTablesLoop_builds memory low present pagingTotalEntriesPerTable
    0 0 rfl (building_start s page)
  generalize tables : newTablesLoop heap directory flags pagingTotalEntriesPerTable 0 0
    { s with
      ram := s.ram.clear directory (4 * pagingTotalEntriesPerTable)
      calls := s.calls + 1
      used := [directory] } = filled at built
  have answeredLast : heap.answer filled.calls filled.used ≠ 0 := by
    rw [built.called]
    exact memory filled.used (by rw [built.count])
  obtain ⟨ptr, -, ptrPage, ptrFresh, ptrAllocated⟩ :=
    kzalloc_of_memory heap 4 answeredLast
  have directoryUsed := built.owned.used directory List.mem_cons_self
  have notPtr : directory ≠ ptr := fun same => ptrFresh (same ▸ directoryUsed)
  have entries : ∀ j < 1024,
      ((filled.ram.clear ptr 4).store ptr 0 (BitVec.ofNat 32 directory)).load
        directory j = filled.ram.load directory j := fun j j_lt =>
    load_pointer _ _ ptrPage page notPtr j_lt
  refine ⟨ptr, { filled with
    ram := (filled.ram.clear ptr 4).store ptr 0 (BitVec.ofNat 32 directory)
    calls := filled.calls + 1 }, ?_, ?_⟩
  · simp only [pagingNew4gb, allocated, PagingState.use, blank, tables, ptrAllocated]
    rfl
  · simp only [Ram.load_store_self, toNat_of_isPage page]
    refine ⟨built.owned.congr rfl ?_, List.mem_cons_self, ?_, ?_⟩
    · intro other otherIn j j_lt
      obtain rfl := List.mem_singleton.mp otherIn
      exact entries j j_lt
    · intro other otherIn i bound
      obtain rfl := List.mem_singleton.mp otherIn
      rfl
    · intro i bound
      rw [entries i (lt_of_lt_shared bound)]
      exact built.present i (lt_of_lt_shared bound)

end LazyOS.Memory
