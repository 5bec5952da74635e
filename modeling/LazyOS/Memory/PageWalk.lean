import LazyOS.Memory.Isolation

namespace LazyOS.Memory

open LazyOS.Data

/-! One directory as the processor sees it: a map from pages to entries. -/

def pageOf (virt : Word) : Nat := virt.toNat / pagingPageSize

theorem pageOf_lt (virt : Word) : pageOf virt < totalPages := by
  have bound := virt.isLt
  unfold pageOf pagingPageSize totalPages
  omega

theorem pagingIsAligned_iff {virt : Word} :
    pagingIsAligned virt = true ↔ virt.toNat % 4096 = 0 := by
  unfold pagingIsAligned pagingPageSize
  rw [decide_eq_true_iff]

theorem pagingGetIndexes_of_aligned {virt : Word}
    (aligned : pagingIsAligned virt = true) :
    pagingGetIndexes virt = some (pageOf virt / 1024, pageOf virt % 1024) := by
  have bound := virt.isLt
  unfold pagingGetIndexes pageOf
  rw [aligned]
  simp only [Bool.not_true, Bool.false_eq_true, if_false, Option.some.injEq,
    Prod.mk.injEq]
  unfold pagingTotalEntriesPerTable pagingPageSize
  omega

theorem pagingGetIndexes_of_unaligned {virt : Word}
    (unaligned : pagingIsAligned virt = false) : pagingGetIndexes virt = none := by
  unfold pagingGetIndexes
  rw [unaligned]
  rfl

def directoryEntry (ram : Ram) (directory : Nat) (virt : Word) : Word :=
  ram.load directory (virt >>> 22).toNat

def tableEntry (ram : Ram) (directory : Nat) (virt : Word) : Word :=
  ram.load (directoryEntry ram directory virt &&& 0xFFFFF000).toNat
    ((virt >>> 12) &&& 1023).toNat

def hardwareWalk (ram : Ram) (directory : Nat) (virt : Word) : Word :=
  if Present (directoryEntry ram directory virt) ∧
      Present (tableEntry ram directory virt) then
    (tableEntry ram directory virt &&& 0xFFFFF000) ||| (virt &&& 0xFFF)
  else 0

theorem shiftRight_22 (virt : Word) : (virt >>> 22).toNat = pageOf virt / 1024 := by
  unfold pageOf pagingPageSize
  rw [BitVec.toNat_ushiftRight, Nat.shiftRight_eq_div_pow]
  omega

theorem shiftRight_12_and (virt : Word) :
    ((virt >>> 12) &&& 1023).toNat = pageOf virt % 1024 := by
  unfold pageOf pagingPageSize
  rw [BitVec.toNat_and, BitVec.toNat_ushiftRight, Nat.shiftRight_eq_div_pow]
  exact Nat.and_two_pow_sub_one_eq_mod _ 10

theorem and_0xFFF (virt : Word) : (virt &&& 0xFFF).toNat = virt.toNat % 4096 := by
  rw [BitVec.toNat_and]
  exact Nat.and_two_pow_sub_one_eq_mod _ 12

/-- `paging_get_physical` finds what the processor finds for an aligned address, and
nothing for another one, although it adds the offset of the address at the end. -/
theorem get_physical_eq_walk_iff (ram : Ram) (directory : Nat) (virt : Word) :
    pagingGetPhysical ram directory virt = hardwareWalk ram directory virt ↔
      virt.toNat % 4096 = 0 ∨ ¬ Present (directoryEntry ram directory virt) ∨
        ¬ Present (tableEntry ram directory virt) := by
  by_cases aligned : virt.toNat % 4096 = 0
  · refine iff_of_true ?_ (.inl aligned)
    have pdEntry : ram.load directory (pageOf virt / 1024) =
        directoryEntry ram directory virt := by
      rw [directoryEntry, shiftRight_22]
    have ptEntry : ram.load (frameOf (directoryEntry ram directory virt)).toNat
        (pageOf virt % 1024) = tableEntry ram directory virt := by
      rw [tableEntry, shiftRight_12_and]
      rfl
    unfold pagingGetPhysical
    rw [pagingGetIndexes_of_aligned (pagingIsAligned_iff.mpr aligned)]
    simp only [pdEntry, ptEntry]
    rw [hardwareWalk]
    by_cases present : Present (directoryEntry ram directory virt)
    · by_cases found : Present (tableEntry ram directory virt)
      · rw [if_pos present, if_pos found, if_pos ⟨present, found⟩]
        rfl
      · rw [if_pos present, if_neg found, if_neg fun both => found both.2]
    · rw [if_neg present, if_neg fun both => present both.1]
  · have offset : virt &&& 0xFFF ≠ 0 := by
      intro zero
      have value := and_0xFFF virt
      rw [zero] at value
      exact aligned value.symm
    have nothing : pagingGetPhysical ram directory virt = 0 := by
      unfold pagingGetPhysical
      rw [pagingGetIndexes_of_unaligned]
      rw [← Bool.not_eq_true, pagingIsAligned_iff]
      exact aligned
    rw [nothing, hardwareWalk, or_iff_right aligned, ← not_and_or]
    by_cases found : Present (directoryEntry ram directory virt) ∧
        Present (tableEntry ram directory virt)
    · rw [if_pos found]
      refine iff_of_false (fun same => ?_) (not_not.mpr found)
      exact offset (BitVec.or_eq_zero_iff.mp same.symm).2
    · rw [if_neg found]
      exact iff_of_true rfl found

/-- A directory at 0x1000 and a table at 0x2000 that maps the first page to
0x3000. -/
def onePageRam : Ram := fun address =>
  if address = 0x1000 then 0x2003 else if address = 0x2000 then 0x3003 else 0

/-- Byte 4 of the mapped page is at 0x3004, and `paging_get_physical` says 0. -/
theorem offset_not_translated :
    ¬ ∀ (ram : Ram) (directory : Nat) (virt : Word),
      pagingGetPhysical ram directory virt = hardwareWalk ram directory virt := by
  intro walksAgree
  exact absurd (walksAgree onePageRam 0x1000 4) (by decide +kernel)

def pageEntry (ram : Ram) (directory page : Nat) : Word :=
  if Present (ram.load directory (page / 1024)) then
    ram.load (tableOf (ram.load directory (page / 1024))) (page % 1024)
  else 0

theorem present_directory {ram : Ram} {directory page : Nat}
    (present : Present (pageEntry ram directory page)) :
    Present (ram.load directory (page / 1024)) := by
  unfold pageEntry at present
  split at present
  · assumption
  · exact absurd present not_present_zero

theorem translation_eq (ram : Ram) (directory page : Nat) :
    translation ram directory page =
      if Present (pageEntry ram directory page) then
        some (ram.load directory (page / 1024), pageEntry ram directory page)
      else none := by
  unfold translation pageEntry pagingTotalEntriesPerTable
  by_cases present : Present (ram.load directory (page / 1024))
  · simp only [if_pos present]
  · simp only [if_neg present, if_neg not_present_zero]

theorem translation_eq_none_iff {ram : Ram} {directory page : Nat} :
    translation ram directory page = none ↔
      ¬ Present (pageEntry ram directory page) := by
  rw [translation_eq]
  split
  · rename_i present
    exact iff_of_false (by simp) (not_not.mpr present)
  · rename_i absent
    exact iff_of_true rfl absent

theorem translation_eq_some {ram : Ram} {directory page : Nat} {pdEntry ptEntry : Word}
    (found : translation ram directory page = some (pdEntry, ptEntry)) :
    pageEntry ram directory page = ptEntry ∧ Present ptEntry := by
  rw [translation_eq] at found
  split at found
  · rename_i present
    obtain ⟨-, rfl⟩ := Prod.ext_iff.mp (Option.some.inj found)
    exact ⟨rfl, present⟩
  · cases found

theorem pagingGetPhysical_of_entry {ram : Ram} {directory : Nat} {virt entry : Word}
    (aligned : pagingIsAligned virt = true)
    (found : pageEntry ram directory (pageOf virt) = entry) (present : Present entry) :
    pagingGetPhysical ram directory virt = frameOf entry := by
  have offset : virt &&& 0xFFF = 0 := by
    apply BitVec.eq_of_toNat_eq
    rw [and_0xFFF, pagingIsAligned_iff.mp aligned]
    rfl
  have page : translation ram directory (virt.toNat / pagingPageSize) =
      some (ram.load directory (pageOf virt / 1024), entry) := by
    change translation ram directory (pageOf virt) = _
    rw [translation_eq, found, if_pos present]
  rw [pagingGetPhysical_eq ram directory aligned, page, offset]
  exact BitVec.or_zero

def frameAt (ram : Ram) (directory page : Nat) : Option Word :=
  (translation ram directory page).map fun found => frameOf found.2

/-- The present entries of the directory point to pairwise different tables, none of
which is the directory itself; the heap counts all of them as used. -/
structure DistinctTables (directory : Nat) (ram : Ram) (used : List Nat) : Prop where
  pages : ∀ block ∈ used, IsPage block
  directoryUsed : directory ∈ used
  tables : ∀ i < 1024, Present (ram.load directory i) →
    tableOf (ram.load directory i) ∈ used ∧ tableOf (ram.load directory i) ≠ directory
  distinct : ∀ i < 1024, ∀ j < 1024, Present (ram.load directory i) →
    Present (ram.load directory j) →
      tableOf (ram.load directory i) = tableOf (ram.load directory j) → i = j

theorem Owned.distinctTables {s : PagingState} {directories : List Nat}
    (owned : Owned s directories) {directory : Nat} (member : directory ∈ directories) :
    DistinctTables directory s.ram s.used := by
  refine ⟨owned.pages, owned.used directory member, ?_, ?_⟩
  · intro i i_lt present
    obtain ⟨tableUsed, notDirectory⟩ := owned.tables directory member i i_lt present
    refine ⟨tableUsed, fun same => notDirectory ?_⟩
    rw [same]
    exact member
  · intro i i_lt j j_lt leftPresent rightPresent same
    exact (owned.alone directory member directory member i i_lt j j_lt leftPresent
      rightPresent same).1

theorem distinctTables_iff_owned {directory : Nat} {s : PagingState} :
    DistinctTables directory s.ram s.used ↔ Owned s [directory] := by
  constructor
  · rintro ⟨pages, directoryUsed, tables, distinct⟩
    refine ⟨pages, ?_, ?_, ?_⟩
    · intro other member
      obtain rfl := List.mem_singleton.mp member
      exact directoryUsed
    · intro other member i i_lt present
      obtain rfl := List.mem_singleton.mp member
      rw [List.mem_singleton]
      exact tables i i_lt present
    · intro left leftIn right rightIn i i_lt j j_lt leftPresent rightPresent same
      obtain rfl := List.mem_singleton.mp leftIn
      obtain rfl := List.mem_singleton.mp rightIn
      exact ⟨distinct i i_lt j j_lt leftPresent rightPresent same, .inl rfl⟩
  · intro owned
    exact owned.distinctTables (List.mem_singleton_self directory)

/-- Every directory the kernel comes to have is of this kind, whatever paging
operations have run since the boot directory was built. -/
theorem distinctTables_run {heap : PageHeap} {flags : Word} {s : PagingState}
    (blank : s.used = []) (memory : HasBootMemory heap s.calls)
    (low : flags.toNat < 4096) (present : Present flags) {ops : List PagingOp}
    {spaces : AddressSpaces}
    (run : Run (PagingStep heap) (bootSpaces heap flags s) ops spaces) {directory : Nat}
    (member : directory ∈ spaces.directories) :
    DistinctTables directory spaces.state.ram spaces.state.used := by
  have inv := run.invariant AddressSpaces.Inv
    (fun _ _ _ inv step => (pagingStep_spec inv step).1)
    (bootSpaces_inv blank memory low present)
  exact inv.owned.distinctTables member

/-- From `s` to `after` one page gets the entry `value`; a table is made for it if
there was none. -/
structure SetsEntry (directory page : Nat) (value : Word) (s after : PagingState) :
    Prop where
  distinct : DistinctTables directory after.ram after.used
  entry : ∀ other < totalPages, pageEntry after.ram directory other =
    if other = page then value else pageEntry s.ram directory other
  kept : ∀ k < 1024, Present (s.ram.load directory k) →
    after.ram.load directory k = s.ram.load directory k
  present_iff : ∀ k < 1024, Present (after.ram.load directory k) ↔
    Present (s.ram.load directory k) ∨ k = page / 1024

theorem directory_index_lt {page : Nat} (inside : page < totalPages) :
    page / 1024 < 1024 := by
  unfold totalPages at inside
  omega

namespace SetsEntry

variable {directory page : Nat} {value : Word} {s middle after : PagingState}

theorem trans {earlier : Word} (first : SetsEntry directory page earlier s middle)
    (second : SetsEntry directory page value middle after) :
    SetsEntry directory page value s after := by
  refine ⟨second.distinct, ?_, ?_, ?_⟩
  · intro other inside
    rw [second.entry other inside]
    by_cases here : other = page
    · rw [if_pos here, if_pos here]
    · rw [if_neg here, if_neg here, first.entry other inside, if_neg here]
  · intro k k_lt present
    rw [second.kept k k_lt ((first.present_iff k k_lt).mpr (.inl present)),
      first.kept k k_lt present]
  · intro k k_lt
    rw [second.present_iff k k_lt, first.present_iff k k_lt, or_assoc, or_self]

theorem translation_of_ne (sets : SetsEntry directory page value s after) {other : Nat}
    (inside : other < totalPages) (different : other ≠ page) :
    translation after.ram directory other = translation s.ram directory other := by
  have same := sets.entry other inside
  rw [if_neg different] at same
  rw [translation_eq, translation_eq, same]
  split
  · rename_i present
    rw [sets.kept _ (directory_index_lt inside) (present_directory present)]
  · rfl

theorem frameAt_self (sets : SetsEntry directory page value s after)
    (inside : page < totalPages) (present : Present value) :
    frameAt after.ram directory page = some (frameOf value) := by
  have set := sets.entry page inside
  rw [if_pos rfl] at set
  rw [frameAt, translation_eq, set, if_pos present]
  rfl

end SetsEntry

namespace DistinctTables

variable {directory page : Nat} {s : PagingState}

theorem store (distinct : DistinctTables directory s.ram s.used)
    (inside : page < totalPages)
    (present : Present (s.ram.load directory (page / 1024))) (value : Word) :
    SetsEntry directory page value s
      (s.store (tableOf (s.ram.load directory (page / 1024))) (page % 1024) value) := by
  have index := directory_index_lt inside
  have offset : page % 1024 < 1024 := Nat.mod_lt _ (by decide)
  have directoryPage := distinct.pages directory distinct.directoryUsed
  obtain ⟨tableUsed, apart⟩ := distinct.tables _ index present
  have tablePage := distinct.pages _ tableUsed
  have load : ∀ k < 1024, (s.store (tableOf (s.ram.load directory (page / 1024)))
      (page % 1024) value).ram.load directory k = s.ram.load directory k :=
    fun k k_lt => s.ram.load_store_of_page value tablePage directoryPage offset k_lt
      (Ne.symm apart)
  refine ⟨⟨distinct.pages, distinct.directoryUsed, ?_, ?_⟩, ?_, ?_, ?_⟩
  · intro i i_lt
    rw [load i i_lt]
    exact distinct.tables i i_lt
  · intro i i_lt j j_lt
    rw [load i i_lt, load j j_lt]
    exact distinct.distinct i i_lt j j_lt
  · intro other otherInside
    have otherIndex := directory_index_lt otherInside
    unfold pageEntry
    rw [load _ otherIndex]
    by_cases here : other = page
    · subst here
      rw [if_pos present, if_pos rfl]
      exact Ram.load_store_self ..
    · rw [if_neg here]
      by_cases otherPresent : Present (s.ram.load directory (other / 1024))
      · rw [if_pos otherPresent, if_pos otherPresent]
        by_cases sameTable : other / 1024 = page / 1024
        · rw [sameTable]
          exact s.ram.load_store_of_index value (by omega)
        · refine s.ram.load_store_of_page value tablePage
            (distinct.pages _ (distinct.tables _ otherIndex otherPresent).1) offset
            (Nat.mod_lt _ (by decide)) fun same => sameTable ?_
          exact distinct.distinct _ otherIndex _ index otherPresent present same
      · rw [if_neg otherPresent, if_neg otherPresent]
  · intro k k_lt _
    exact load k k_lt
  · intro k k_lt
    rw [load k k_lt]
    refine (or_iff_left_of_imp ?_).symm
    rintro rfl
    exact present

theorem link (distinct : DistinctTables directory s.ram s.used)
    (inside : page < totalPages)
    (absent : ¬ Present (s.ram.load directory (page / 1024))) {block : Nat}
    (blockPage : IsPage block) (fresh : block ∉ s.used) :
    SetsEntry directory page 0 s
      (s.link directory (page / 1024) block tableFlags) := by
  have index := directory_index_lt inside
  have owned := distinctTables_iff_owned.mp distinct
  have member : directory ∈ [directory] := List.mem_singleton_self directory
  have directoryPage := distinct.pages directory distinct.directoryUsed
  have load : ∀ k < 1024,
      (s.link directory (page / 1024) block tableFlags).ram.load directory k =
        if k = page / 1024 then BitVec.ofNat 32 block ||| tableFlags
        else s.ram.load directory k := by
    intro k k_lt
    rw [owned.load_link member index blockPage fresh distinct.directoryUsed k_lt]
    simp only [true_and]
  have linkPresent : Present (BitVec.ofNat 32 block ||| tableFlags) :=
    present_or _ (by decide)
  refine ⟨distinctTables_iff_owned.mpr
    (owned.link member index blockPage fresh (by decide)), ?_, ?_, ?_⟩
  · intro other otherInside
    have otherIndex := directory_index_lt otherInside
    have offset : other % 1024 < 1024 := Nat.mod_lt _ (by decide)
    unfold pageEntry
    rw [load _ otherIndex]
    by_cases sameTable : other / 1024 = page / 1024
    · -- The new table holds zeros only.
      have apart : block ≠ directory := fun same =>
        fresh (same ▸ distinct.directoryUsed)
      have blank : (s.link directory (page / 1024) block tableFlags).ram.load block
          (other % 1024) = 0 :=
        (Ram.load_store_of_page _ _ directoryPage blockPage index offset apart).trans
          (s.ram.load_clear_self block offset)
      rw [if_pos sameTable, if_pos linkPresent, tableOf_or blockPage (by decide), blank,
        sameTable, if_neg absent, ite_self]
    · have different : other ≠ page := fun same => sameTable (same ▸ rfl)
      rw [if_neg sameTable, if_neg different]
      by_cases present : Present (s.ram.load directory (other / 1024))
      · obtain ⟨tableUsed, apart⟩ := distinct.tables _ otherIndex present
        rw [if_pos present, if_pos present, owned.load_link member index blockPage fresh
          tableUsed offset, if_neg fun both => apart both.1]
      · rw [if_neg present, if_neg present]
  · intro k k_lt present
    rw [load k k_lt, if_neg]
    rintro rfl
    exact absent present
  · intro k k_lt
    rw [load k k_lt]
    split
    · rename_i here
      exact iff_of_true linkPresent (.inr here)
    · rename_i other
      exact (or_iff_left other).symm

end DistinctTables

inductive SetResult (heap : PageHeap) (directory page : Nat) (value : Word)
    (s : PagingState) : Int × PagingState → Prop
  | stored {after : PagingState}
      (present : Present (s.ram.load directory (page / 1024)))
      (sets : SetsEntry directory page value s after)
      (calls : after.calls = s.calls) (used : after.used = s.used) :
      SetResult heap directory page value s (0, after)
  | linked {after : PagingState}
      (absent : ¬ Present (s.ram.load directory (page / 1024)))
      (memory : heap.answer s.calls s.used ≠ 0)
      (sets : SetsEntry directory page value s after)
      (calls : after.calls = s.calls + 1)
      (used : after.used = heap.answer s.calls s.used :: s.used) :
      SetResult heap directory page value s (0, after)
  | refused (absent : ¬ Present (s.ram.load directory (page / 1024)))
      (none : heap.answer s.calls s.used = 0) :
      SetResult heap directory page value s (-noMemory, { s with calls := s.calls + 1 })

theorem pagingSet_result (heap : PageHeap) {directory : Nat} {s : PagingState}
    (distinct : DistinctTables directory s.ram s.used) {virt : Word}
    (aligned : pagingIsAligned virt = true) (value : Word) :
    SetResult heap directory (pageOf virt) value s
      (pagingSet heap directory virt value s) := by
  have inside := pageOf_lt virt
  unfold pagingSet
  rw [pagingGetIndexes_of_aligned aligned]
  simp only
  by_cases present : Present (s.ram.load directory (pageOf virt / 1024))
  · rw [if_pos present]
    exact .stored present (distinct.store inside present value) rfl rfl
  · rw [if_neg present]
    by_cases none : heap.answer s.calls s.used = 0
    · simp only [kzalloc, if_pos none, if_true]
      exact .refused present none
    · simp only [kzalloc, if_neg none, BitVec.or_assoc]
      have blockPage : IsPage (heap.answer s.calls s.used) :=
        ⟨heap.aligned _ _, heap.inside _ _⟩
      have counted : DistinctTables directory
          { s with calls := s.calls + 1 }.ram { s with calls := s.calls + 1 }.used :=
        distinct
      have linked := counted.link inside present blockPage (heap.fresh _ _ none)
      have stored := linked.distinct.store inside
        ((linked.present_iff _ (directory_index_lt inside)).mpr (.inr rfl)) value
      rw [PagingState.load_link] at stored
      exact .linked present none ⟨stored.distinct, (linked.trans stored).entry,
        (linked.trans stored).kept, (linked.trans stored).present_iff⟩ rfl rfl

structure SetsOnePage (heap : PageHeap) (directory : Nat) (virt entry : Word)
    (s : PagingState) : Prop where
  mapped : (pagingSet heap directory virt entry s).1 = 0 →
    frameAt (pagingSet heap directory virt entry s).2.ram directory (pageOf virt) =
      some (frameOf entry)
  others : (pagingSet heap directory virt entry s).1 = 0 →
    ∀ page < totalPages, page ≠ pageOf virt →
      translation (pagingSet heap directory virt entry s).2.ram directory page =
        translation s.ram directory page
  distinct : (pagingSet heap directory virt entry s).1 = 0 →
    DistinctTables directory (pagingSet heap directory virt entry s).2.ram
      (pagingSet heap directory virt entry s).2.used
  failed : (pagingSet heap directory virt entry s).1 < 0 →
    ∀ page < totalPages,
      translation (pagingSet heap directory virt entry s).2.ram directory page =
        translation s.ram directory page

theorem SetsEntry.setsOnePage {heap : PageHeap} {directory : Nat} {virt entry : Word}
    {s after : PagingState} (sets : SetsEntry directory (pageOf virt) entry s after)
    (present : Present entry)
    (ended : pagingSet heap directory virt entry s = (0, after)) :
    SetsOnePage heap directory virt entry s := by
  refine ⟨?_, ?_, ?_, ?_⟩
  · intro _
    rw [ended]
    exact sets.frameAt_self (pageOf_lt virt) present
  · intro _ page inside different
    rw [ended]
    exact sets.translation_of_ne inside different
  · intro _
    rw [ended]
    exact sets.distinct
  · intro negative
    rw [ended] at negative
    exact absurd negative (lt_irrefl 0)

theorem setsOnePage_of_failed {heap : PageHeap} {directory : Nat} {virt entry : Word}
    {s after : PagingState} {code : Int} (negative : code < 0)
    (ended : pagingSet heap directory virt entry s = (code, after))
    (unchanged : after.ram = s.ram) : SetsOnePage heap directory virt entry s := by
  have nonzero : (pagingSet heap directory virt entry s).1 ≠ 0 := by
    rw [ended]
    exact negative.ne
  refine ⟨fun zero => absurd zero nonzero, fun zero => absurd zero nonzero,
    fun zero => absurd zero nonzero, ?_⟩
  intro _ page _
  rw [ended, unchanged]

/-- Mapping one page is seen at that page only, and a failed mapping nowhere. -/
theorem set_affects_one_page (heap : PageHeap) {directory : Nat} {s : PagingState}
    (distinct : DistinctTables directory s.ram s.used) (virt : Word) {entry : Word}
    (present : Present entry) : SetsOnePage heap directory virt entry s := by
  by_cases aligned : pagingIsAligned virt = true
  · have result := pagingSet_result heap distinct aligned entry
    generalize ended : pagingSet heap directory virt entry s = pair at result
    cases result with
    | stored _ sets _ _ => exact sets.setsOnePage present ended
    | linked _ _ sets _ _ => exact sets.setsOnePage present ended
    | refused _ _ => exact setsOnePage_of_failed (by decide) ended rfl
  · have ended : pagingSet heap directory virt entry s = (-einvarg, s) := by
      unfold pagingSet
      rw [pagingGetIndexes_of_unaligned (Bool.not_eq_true _ ▸ aligned)]
    exact setsOnePage_of_failed (by decide) ended rfl

def emptyDirectory : PagingState := ⟨fun _ => 0, fun _ => 0, 0, [0x1000]⟩

theorem distinctTables_empty :
    DistinctTables 0x1000 emptyDirectory.ram emptyDirectory.used := by
  refine ⟨?_, List.mem_singleton_self _, ?_, ?_⟩
  · intro block member
    obtain rfl := List.mem_singleton.mp member
    exact ⟨⟨1, rfl⟩, by decide⟩
  · intro i _ present
    exact absurd present not_present_zero
  · intro i _ j _ present
    exact absurd present not_present_zero

def onePageMapped : PagingState :=
  (pagingSet smallHeap 0x1000 0xC0005000 0x7003 emptyDirectory).2

theorem distinctTables_onePage :
    DistinctTables 0x1000 onePageMapped.ram onePageMapped.used := by
  have result := pagingSet_result smallHeap distinctTables_empty
    (show pagingIsAligned 0xC0005000 = true from by decide) 0x7003
  unfold onePageMapped
  generalize pagingSet smallHeap 0x1000 0xC0005000 0x7003 emptyDirectory = pair at result
  cases result with
  | stored _ sets _ _ => exact sets.distinct
  | linked _ _ sets _ _ => exact sets.distinct
  | refused _ _ => exact distinctTables_empty

/-- A second page goes into the same table, and the first stays where it is. -/
theorem set_affects_one_page_second :
    (pagingSet smallHeap 0x1000 0xC0000000 0x3003 onePageMapped).1 = 0 ∧
      frameAt (pagingSet smallHeap 0x1000 0xC0000000 0x3003 onePageMapped).2.ram 0x1000
        0xC0000 = some 0x3000 ∧
      frameAt (pagingSet smallHeap 0x1000 0xC0000000 0x3003 onePageMapped).2.ram 0x1000
        0xC0005 = some 0x7000 := by
  have served : (pagingSet smallHeap 0x1000 0xC0000000 0x3003 onePageMapped).1 = 0 := by
    decide +kernel
  have before : frameAt onePageMapped.ram 0x1000 0xC0005 = some 0x7000 := by
    decide +kernel
  have sets := set_affects_one_page smallHeap distinctTables_onePage 0xC0000000
    (show Present 0x3003 from by decide)
  refine ⟨served, sets.mapped served, ?_⟩
  unfold frameAt at before ⊢
  rw [sets.others served 0xC0005 (by decide) (by decide)]
  exact before

/-- The present entries point to pairwise different tables, which may be the directory. -/
def TablesApart (directory : Nat) (ram : Ram) : Prop :=
  ∀ i < 1024, ∀ j < 1024, Present (ram.load directory i) → Present (ram.load directory j) →
    tableOf (ram.load directory i) = tableOf (ram.load directory j) → i = j

/-- A directory at 0x1000 whose first entry makes it its own table. -/
def selfMapped : PagingState :=
  { emptyDirectory with ram := (emptyDirectory.ram.store 0x1000 0 0x1003).store 0 0 0x3003 }

theorem tablesApart_selfMapped : TablesApart 0x1000 selfMapped.ram := by
  have only : ∀ i < 1024, Present (selfMapped.ram.load 0x1000 i) → i = 0 := by
    intro i i_lt present
    by_contra other
    refine not_present_zero ?_
    have blank : selfMapped.ram.load 0x1000 i = 0 := by
      simp only [selfMapped, emptyDirectory, Ram.load, Ram.store]
      rw [Function.update_of_ne (by omega), Function.update_of_ne (by omega)]
    rwa [blank] at present
  intro i i_lt j j_lt left right _
  rw [only i i_lt left, only j j_lt right]

/-- The entry of page 0 is then the first entry of the directory: the call writes it
over, and the page is lost. -/
theorem self_mapped_page_lost :
    TablesApart 0x1000 selfMapped.ram ∧ Present 0x5001 ∧
      (pagingSet smallHeap 0x1000 0 0x5001 selfMapped).1 = 0 ∧
      frameAt (pagingSet smallHeap 0x1000 0 0x5001 selfMapped).2.ram 0x1000 0 = none ∧
      ¬ SetsOnePage smallHeap 0x1000 0 0x5001 selfMapped := by
  have served : (pagingSet smallHeap 0x1000 0 0x5001 selfMapped).1 = 0 := by
    decide +kernel
  have lost : frameAt (pagingSet smallHeap 0x1000 0 0x5001 selfMapped).2.ram 0x1000 0 =
      none := by
    decide +kernel
  refine ⟨tablesApart_selfMapped, by decide, served, lost, fun sets => ?_⟩
  have mapped := sets.mapped served
  rw [show pageOf 0 = 0 by decide, lost] at mapped
  cases mapped

end LazyOS.Memory
