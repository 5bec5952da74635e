import LazyOS.Memory.VmmRanges

namespace LazyOS.Memory

open LazyOS.Data

/-! The directory of `paging_new_4gb`, in which every page is mapped to the frame of
the same number. -/

def identityEntry (flags : Word) (page : Nat) : Word :=
  BitVec.ofNat 32 (page * pagingPageSize) ||| flags

structure IdentityMap (ram : Ram) (directory : Nat) (flags : Word) : Prop where
  physical : ∀ virt : Word, pagingIsAligned virt = true →
    pagingGetPhysical ram directory virt = virt
  low : ∀ i < 1024, ∀ j < 1024,
    ram.load (tableOf (ram.load directory i)) j &&& 0xFFF = flags
  entries : ∀ i < 1024, Present (ram.load directory i) ∧
    ram.load directory i &&& pagingIsWritable ≠ 0

/-- The offset of table `i`, as the wrapping `int` has counted it. -/
def tableOffset (i : Nat) : Word :=
  BitVec.ofNat 32 (i * (pagingTotalEntriesPerTable * pagingPageSize))

theorem tableOffset_zero : tableOffset 0 = 0 := by
  unfold tableOffset
  rw [Nat.zero_mul]
  rfl

theorem tableOffset_succ (i : Nat) :
    tableOffset i + BitVec.ofNat 32 (pagingTotalEntriesPerTable * pagingPageSize) =
      tableOffset (i + 1) := by
  unfold tableOffset
  rw [← BitVec.ofNat_add, Nat.succ_mul]

theorem tableOffset_add (flags : Word) (i j : Nat) :
    (tableOffset i + BitVec.ofNat 32 (j * pagingPageSize)) ||| flags =
      identityEntry flags (1024 * i + j) := by
  have pages : i * (pagingTotalEntriesPerTable * pagingPageSize) + j * pagingPageSize =
      (1024 * i + j) * pagingPageSize := by
    unfold pagingTotalEntriesPerTable pagingPageSize
    omega
  unfold tableOffset identityEntry
  rw [← BitVec.ofNat_add, pages]

theorem kzalloc_serves {heap : PageHeap} {count : Nat} {s : PagingState} (bytes : Nat)
    (serves : heap.Serves (count + 1) s.calls s.used) :
    ∃ block, IsPage block ∧ block ∉ s.used ∧
      kzalloc heap bytes s =
        (block, { s with ram := s.ram.clear block bytes, calls := s.calls + 1 }) ∧
      heap.Serves count (s.calls + 1) (block :: s.used) := by
  obtain ⟨answered, rest⟩ := serves
  obtain ⟨block, -, page, fresh, allocated⟩ := kzalloc_of_memory heap bytes answered
  have block_eq : block = heap.answer s.calls s.used := by
    rw [← kzalloc_answer heap bytes s, allocated]
  exact ⟨block, page, fresh, allocated, block_eq ▸ rest⟩

structure MapsTables (directory : Nat) (flags : Word) (i : Nat) (s : PagingState) :
    Prop where
  page : IsPage directory
  used : directory ∈ s.used
  tables : ∀ k < i, ∃ table ∈ s.used, IsPage table ∧ table ≠ directory ∧
    s.ram.load directory k = BitVec.ofNat 32 table ||| (flags ||| pagingIsWritable) ∧
    ∀ j < 1024, s.ram.load table j = identityEntry flags (1024 * k + j)

theorem MapsTables.keep {directory i : Nat} {flags : Word} {s after : PagingState}
    (maps : MapsTables directory flags i s)
    (used : ∀ block ∈ s.used, block ∈ after.used)
    (entries : ∀ k < i, after.ram.load directory k = s.ram.load directory k)
    (kept : ∀ table ∈ s.used, IsPage table → table ≠ directory → ∀ j < 1024,
      after.ram.load table j = s.ram.load table j) :
    MapsTables directory flags i after := by
  refine ⟨maps.page, used directory maps.used, fun k k_lt => ?_⟩
  obtain ⟨table, tableUsed, tablePage, apart, entry, words⟩ := maps.tables k k_lt
  refine ⟨table, used table tableUsed, tablePage, apart, ?_, fun j j_lt => ?_⟩
  · rw [entries k k_lt, entry]
  · rw [kept table tableUsed tablePage apart j j_lt, words j j_lt]

theorem MapsTables.add {directory i : Nat} {flags : Word} {after : PagingState}
    (maps : MapsTables directory flags i after) {table : Nat} (used : table ∈ after.used)
    (page : IsPage table) (apart : table ≠ directory)
    (entry : after.ram.load directory i =
      BitVec.ofNat 32 table ||| (flags ||| pagingIsWritable))
    (words : ∀ j < 1024, after.ram.load table j = identityEntry flags (1024 * i + j)) :
    MapsTables directory flags (i + 1) after := by
  refine ⟨maps.page, maps.used, fun k k_lt => ?_⟩
  rcases Nat.lt_succ_iff_lt_or_eq.mp k_lt with earlier | rfl
  · exact maps.tables k earlier
  · exact ⟨table, used, page, apart, entry, words⟩

theorem newTablesLoop_maps {heap : PageHeap} {directory : Nat} {flags : Word}
    (remaining i count : Nat) {s : PagingState} (all : i + remaining ≤ 1024)
    (serves : heap.Serves (remaining + count) s.calls s.used)
    (maps : MapsTables directory flags i s) :
    MapsTables directory flags (i + remaining)
        (newTablesLoop heap directory flags remaining i (tableOffset i) s) ∧
      heap.Serves count
        (newTablesLoop heap directory flags remaining i (tableOffset i) s).calls
        (newTablesLoop heap directory flags remaining i (tableOffset i) s).used := by
  induction remaining generalizing i s with
  | zero => exact ⟨maps, by rwa [Nat.zero_add] at serves⟩
  | succ remaining ih =>
      rw [Nat.succ_add] at serves
      obtain ⟨served, rest⟩ := serves
      obtain ⟨table, after, adds, turn⟩ := newTablesLoop_turn flags remaining i
        (tableOffset i) maps.page maps.used (by omega) served
      have apart : table ≠ directory := fun same => adds.fresh (same ▸ maps.used)
      have later : heap.Serves (remaining + count) after.calls after.used := by
        rw [adds.calls, adds.used, adds.answered]
        exact rest
      rw [turn, tableOffset_succ, show i + (remaining + 1) = i + 1 + remaining by omega]
      refine ih (i + 1) (by omega) later (MapsTables.add ?_ ?_ adds.page apart ?_ ?_)
      · refine maps.keep ?_ (fun k k_lt => ?_) adds.others
        · intro block member
          rw [adds.used]
          exact List.mem_cons_of_mem _ member
        · rw [adds.entries k (by omega), if_neg (by omega)]
      · rw [adds.used]
        exact List.mem_cons_self
      · rw [adds.entries i (by omega), if_pos rfl]
      · intro j j_lt
        rw [adds.words j j_lt, tableOffset_add]

theorem isPage_of_page {page : Nat} (inside : page < totalPages) :
    IsPage (page * pagingPageSize) := by
  unfold totalPages at inside
  refine ⟨Nat.dvd_mul_left _ _, ?_⟩
  unfold pagingPageSize
  omega

theorem identityEntry_frame {flags : Word} (low : flags.toNat < 4096) {page : Nat}
    (inside : page < totalPages) :
    tableOf (identityEntry flags page) = page * pagingPageSize :=
  tableOf_or (isPage_of_page inside) low

theorem identityEntry_flags {flags : Word} (low : flags.toNat < 4096) {page : Nat}
    (inside : page < totalPages) : identityEntry flags page &&& 0xFFF = flags := by
  unfold totalPages at inside
  apply BitVec.eq_of_toNat_eq
  have frame : page * pagingPageSize % 2 ^ 32 = 2 ^ 12 * page := by
    unfold pagingPageSize
    omega
  rw [and_0xFFF, identityEntry, BitVec.toNat_or, BitVec.toNat_ofNat, frame,
    ← Nat.two_pow_add_eq_or_of_lt (by omega : flags.toNat < 2 ^ 12)]
  omega

theorem MapsTables.identityMap {directory : Nat} {flags : Word} {s : PagingState}
    (maps : MapsTables directory flags 1024 s) (low : flags.toNat < 4096)
    (present : Present flags) : IdentityMap s.ram directory flags := by
  have linked : Present (flags ||| pagingIsWritable) := by
    rw [BitVec.or_comm]
    exact present_or _ present
  have entries : ∀ i < 1024, Present (s.ram.load directory i) ∧
      ∀ j < 1024, s.ram.load (tableOf (s.ram.load directory i)) j =
        identityEntry flags (1024 * i + j) := by
    intro i i_lt
    obtain ⟨table, -, page, -, entry, words⟩ := maps.tables i i_lt
    rw [entry, tableOf_or page (writable_low low)]
    exact ⟨present_or _ linked, words⟩
  refine ⟨?_, ?_, ?_⟩
  · intro virt aligned
    have inside := pageOf_lt virt
    have index := directory_index_lt inside
    obtain ⟨tablePresent, words⟩ := entries (pageOf virt / 1024) index
    have entry : pageEntry s.ram directory (pageOf virt) =
        identityEntry flags (pageOf virt) := by
      rw [pageEntry, if_pos tablePresent, words _ (Nat.mod_lt _ (by decide)),
        Nat.div_add_mod]
    rw [pagingGetPhysical_of_entry aligned entry (present_or _ present)]
    apply BitVec.eq_of_toNat_eq
    rw [pagingIsAligned_iff] at aligned
    change tableOf (identityEntry flags (pageOf virt)) = _
    rw [identityEntry_frame low inside]
    unfold pageOf pagingPageSize
    omega
  · intro i i_lt j j_lt
    rw [(entries i i_lt).2 j j_lt]
    refine identityEntry_flags low ?_
    unfold totalPages
    omega
  · intro i i_lt
    refine ⟨(entries i i_lt).1, ?_⟩
    obtain ⟨table, -, -, -, entry, -⟩ := maps.tables i i_lt
    rw [entry, ← BitVec.or_assoc]
    exact or_and_ne_zero _ (by decide)

/-- When the heap serves the directory, its tables and the structure, every page of
the new directory is mapped to itself, with the flags given. -/
theorem new_4gb_identity {heap : PageHeap} {flags : Word} {s : PagingState}
    (low : flags.toNat < 4096) (present : Present flags)
    (serves : heap.Serves 1026 s.calls s.used) :
    IdentityMap (pagingNew4gb heap flags s).2.ram
      ((pagingNew4gb heap flags s).2.ram.load (pagingNew4gb heap flags s).1 0).toNat
      flags := by
  obtain ⟨directory, page, -, allocated, rest⟩ :=
    kzalloc_serves (4 * pagingTotalEntriesPerTable) serves
  have start : MapsTables directory flags 0
      { s with
        ram := s.ram.clear directory (4 * pagingTotalEntriesPerTable)
        calls := s.calls + 1
        used := directory :: s.used } :=
    ⟨page, List.mem_cons_self, fun k k_lt => absurd k_lt (Nat.not_lt_zero k)⟩
  obtain ⟨maps, last⟩ := newTablesLoop_maps pagingTotalEntriesPerTable 0 1
    (by decide) rest start
  rw [tableOffset_zero] at maps last
  simp only [pagingNew4gb, allocated, PagingState.use]
  generalize newTablesLoop heap directory flags pagingTotalEntriesPerTable 0 0
    { s with
      ram := s.ram.clear directory (4 * pagingTotalEntriesPerTable)
      calls := s.calls + 1
      used := directory :: s.used } = filled at maps last ⊢
  obtain ⟨ptr, ptrPage, ptrFresh, pointed, -⟩ := kzalloc_serves 4 last
  have apart : ∀ block ∈ filled.used, block ≠ ptr := fun block member same =>
    ptrFresh (same ▸ member)
  simp only [pointed, PagingState.store, Ram.load_store_self, toNat_of_isPage page]
  have kept : MapsTables directory flags 1024 { filled with
      ram := (filled.ram.clear ptr 4).store ptr 0 (BitVec.ofNat 32 directory) } := by
    refine maps.keep (fun _ member => member) ?_ ?_
    · intro k k_lt
      exact load_pointer _ _ ptrPage page (apart directory maps.used) k_lt
    · intro table tableUsed tablePage _ j j_lt
      exact load_pointer _ _ ptrPage tablePage (apart table tableUsed) j_lt
  exact kept.identityMap low present

theorem serves_of_pages {count : Nat} (small : count ≤ 2 ^ 16) (requests calls : Nat)
    {used : List Nat} (enough : used.length + requests ≤ count) :
    (pageHeap count small).Serves requests calls used := by
  induction requests generalizing calls used with
  | zero => trivial
  | succ requests ih =>
      refine ⟨?_, ih (calls + 1) (by rw [List.length_cons]; omega)⟩
      change firstFreePage count used ≠ 0
      rcases firstFreePage_cases count used with ⟨-, long⟩ | ⟨i, -, block, -⟩
      · omega
      · omega

theorem new_4gb_identity_writable :
    IdentityMap (pagingNew4gb smallHeap 3 ⟨fun _ => 0, fun _ => 0, 0, []⟩).2.ram
      ((pagingNew4gb smallHeap 3 ⟨fun _ => 0, fun _ => 0, 0, []⟩).2.ram.load
        (pagingNew4gb smallHeap 3 ⟨fun _ => 0, fun _ => 0, 0, []⟩).1 0).toNat 3 :=
  new_4gb_identity (by decide) (by decide) (serves_of_pages (by norm_num) 1026 0 (by decide))

end LazyOS.Memory
