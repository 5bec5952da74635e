import LazyOS.Memory.FreeFrames
import LazyOS.Memory.FreshPages
import LazyOS.Memory.PageWalk

namespace LazyOS.Memory

open LazyOS.Data

/-! The loops of `vmm_alloc` and `free_vmm` over the pages of a range, as the entries
of the pages and the frames of the bitmap show them. -/

def pagesFor (size : Word) : Nat := (size.toNat + 4095) / 4096

def rangePage (virtStart : Word) (k : Nat) : Nat := pageOf (pageAt virtStart k)

theorem pageCount_of_fits {size : Word} (fits : size.toNat ≤ 0xFFFFF000) :
    pageCount size = pagesFor size := by
  unfold pageCount pagesFor pagingPageSize
  rw [BitVec.toNat_add, BitVec.toNat_ofNat]
  omega

theorem pageCount_of_wrap {size : Word} (large : 0xFFFFF000 < size.toNat) :
    pageCount size = 0 := by
  have bound := size.isLt
  unfold pageCount pagingPageSize
  rw [BitVec.toNat_add, BitVec.toNat_ofNat]
  omega

theorem pagesFor_lt {size : Word} (fits : size.toNat ≤ 0xFFFFF000) :
    pagesFor size < 2 ^ 20 := by
  unfold pagesFor
  omega

theorem pageAt_toNat (virtStart : Word) (k : Nat) :
    (pageAt virtStart k).toNat = (virtStart.toNat + 4096 * k) % 2 ^ 32 := by
  unfold pageAt pagingPageSize
  rw [BitVec.toNat_add, BitVec.toNat_ofNat, Nat.add_mod_mod, Nat.mul_comm]

theorem rangePage_lt (virtStart : Word) (k : Nat) : rangePage virtStart k < totalPages :=
  pageOf_lt _

section

variable {virtStart : Word}

theorem pageAt_aligned (aligned : pagingIsAligned virtStart = true) (k : Nat) :
    pagingIsAligned (pageAt virtStart k) = true := by
  rw [pagingIsAligned_iff] at aligned ⊢
  rw [pageAt_toNat]
  omega

theorem rangePage_inj (aligned : pagingIsAligned virtStart = true) {j k : Nat}
    (j_lt : j < 2 ^ 20) (k_lt : k < 2 ^ 20)
    (same : rangePage virtStart j = rangePage virtStart k) : j = k := by
  rw [pagingIsAligned_iff] at aligned
  unfold rangePage pageOf pagingPageSize at same
  rw [pageAt_toNat, pageAt_toNat] at same
  omega

end

/-- From `s` to `after` only the entries of pages `first`, …, `stop - 1` of the range
have changed, and only tables have been added. -/
structure ChangesRange (directory : Nat) (virtStart : Word) (first stop : Nat)
    (s after : PagingState) : Prop where
  distinct : DistinctTables directory after.ram after.used
  outside : ∀ page < totalPages,
    (∀ k, first ≤ k → k < stop → page ≠ rangePage virtStart k) →
      pageEntry after.ram directory page = pageEntry s.ram directory page
  kept : ∀ k < 1024, Present (s.ram.load directory k) →
    after.ram.load directory k = s.ram.load directory k

namespace ChangesRange

variable {directory first stop : Nat} {virtStart : Word}
  {s middle after : PagingState}

theorem refl (distinct : DistinctTables directory s.ram s.used) (first stop : Nat) :
    ChangesRange directory virtStart first stop s s :=
  ⟨distinct, fun _ _ _ => rfl, fun _ _ _ => rfl⟩

theorem cons {value : Word} (less : first < stop)
    (sets : SetsEntry directory (rangePage virtStart first) value s middle)
    (rest : ChangesRange directory virtStart (first + 1) stop middle after) :
    ChangesRange directory virtStart first stop s after := by
  refine ⟨rest.distinct, ?_, ?_⟩
  · intro page inside apart
    rw [rest.outside page inside fun k lower upper => apart k (by omega) upper,
      sets.entry page inside, if_neg (apart first le_rfl less)]
  · intro k k_lt present
    rw [rest.kept k k_lt ((sets.present_iff k k_lt).mpr (.inl present)),
      sets.kept k k_lt present]

theorem skip (rest : ChangesRange directory virtStart (first + 1) stop middle after)
    (ram : middle.ram = s.ram) :
    ChangesRange directory virtStart first stop s after := by
  refine ⟨rest.distinct, ?_, ?_⟩
  · intro page inside apart
    rw [rest.outside page inside fun k lower upper => apart k (by omega) upper, ram]
  · intro k k_lt present
    rw [rest.kept k k_lt (by rwa [ram]), ram]

theorem of_bitmap {bitmap : Bitmap}
    (changes : ChangesRange directory virtStart first stop { s with bitmap := bitmap }
      after) : ChangesRange directory virtStart first stop s after :=
  ⟨changes.distinct, changes.outside, changes.kept⟩

theorem entry_first (rest : ChangesRange directory virtStart (first + 1) stop middle after)
    (aligned : pagingIsAligned virtStart = true) (less : first < stop)
    (short : stop ≤ 2 ^ 20) :
    pageEntry after.ram directory (rangePage virtStart first) =
      pageEntry middle.ram directory (rangePage virtStart first) := by
  refine rest.outside _ (rangePage_lt _ _) fun k lower upper same => ?_
  have := rangePage_inj aligned (by omega) (by omega) same
  omega

theorem translation_outside (changes : ChangesRange directory virtStart first stop s after)
    {page : Nat} (inside : page < totalPages)
    (apart : ∀ k, first ≤ k → k < stop → page ≠ rangePage virtStart k) :
    translation after.ram directory page = translation s.ram directory page := by
  rw [translation_eq, translation_eq, changes.outside page inside apart]
  split
  · rename_i present
    rw [changes.kept _ (directory_index_lt inside) (present_directory present)]
  · rfl

end ChangesRange

/-- The entries of the directory behind which pages `first`, …, `stop - 1` of the
range lie and which are not present. -/
def missingTables (ram : Ram) (directory : Nat) (virtStart : Word) (first stop : Nat) :
    Finset Nat :=
  ((Finset.Ico first stop).image fun k => rangePage virtStart k / 1024).filter
    fun d => ¬ Present (ram.load directory d)

/-- The next `count` requests are served, each block being used from then on. -/
def PageHeap.Serves (heap : PageHeap) : (count calls : Nat) → (used : List Nat) → Prop
  | 0, _, _ => True
  | count + 1, calls, used =>
      heap.answer calls used ≠ 0 ∧
        heap.Serves count (calls + 1) (heap.answer calls used :: used)

theorem PageHeap.Serves.first {heap : PageHeap} {count calls : Nat} {used : List Nat}
    (serves : heap.Serves count calls used) (some : count ≠ 0) :
    heap.answer calls used ≠ 0 := by
  cases count with
  | zero => exact absurd rfl some
  | succ count => exact serves.1

section

variable {ram after : Ram} {directory first stop : Nat} {virtStart : Word}

theorem mem_missingTables {d : Nat} :
    d ∈ missingTables ram directory virtStart first stop ↔
      (∃ k, first ≤ k ∧ k < stop ∧ rangePage virtStart k / 1024 = d) ∧
        ¬ Present (ram.load directory d) := by
  unfold missingTables
  rw [Finset.mem_filter, Finset.mem_image]
  simp only [Finset.mem_Ico, and_assoc]

theorem missingTables_empty (ram : Ram) (directory : Nat) (virtStart : Word)
    (first : Nat) : missingTables ram directory virtStart first first = ∅ := by
  unfold missingTables
  rw [Finset.Ico_self, Finset.image_empty, Finset.filter_empty]

/-- After the first page has its table, the tables that miss are those that missed
before, without the one of that page. -/
theorem missingTables_rest (less : first < stop)
    (present_iff : ∀ k < 1024, Present (after.load directory k) ↔
      Present (ram.load directory k) ∨ k = rangePage virtStart first / 1024) :
    missingTables after directory virtStart (first + 1) stop =
      (missingTables ram directory virtStart first stop).erase
        (rangePage virtStart first / 1024) := by
  ext d
  rw [Finset.mem_erase, mem_missingTables, mem_missingTables]
  constructor
  · rintro ⟨⟨k, lower, upper, rfl⟩, absent⟩
    rw [present_iff _ (directory_index_lt (rangePage_lt _ _)), not_or] at absent
    exact ⟨absent.2, ⟨k, by omega, upper, rfl⟩, absent.1⟩
  · rintro ⟨different, ⟨k, lower, upper, rfl⟩, absent⟩
    have later : k ≠ first := by
      rintro rfl
      exact different rfl
    refine ⟨⟨k, by omega, upper, rfl⟩, ?_⟩
    rw [present_iff _ (directory_index_lt (rangePage_lt _ _)), not_or]
    exact ⟨absent, different⟩

theorem first_mem_missingTables (less : first < stop)
    (absent : ¬ Present (ram.load directory (rangePage virtStart first / 1024))) :
    rangePage virtStart first / 1024 ∈
      missingTables ram directory virtStart first stop :=
  mem_missingTables.mpr ⟨⟨first, le_rfl, less, rfl⟩, absent⟩

end

/-- The heap serves the rest of a range exactly when it serves the whole of it, the
table of the first page being there by now. -/
theorem SetResult.serves_iff {heap : PageHeap} {directory first stop : Nat}
    {virtStart value : Word} {s after : PagingState} (less : first < stop)
    (result : SetResult heap directory (rangePage virtStart first) value s (0, after)) :
    heap.Serves (missingTables s.ram directory virtStart first stop).card s.calls
        s.used ↔
      heap.Serves (missingTables after.ram directory virtStart (first + 1) stop).card
        after.calls after.used := by
  generalize ended : ((0 : Int), after) = pair at result
  cases result with
  | stored present sets calls used =>
      obtain rfl := (Prod.ext_iff.mp ended).2
      have unneeded : rangePage virtStart first / 1024 ∉
          missingTables s.ram directory virtStart first stop := fun member =>
        (mem_missingTables.mp member).2 present
      rw [missingTables_rest less sets.present_iff, Finset.erase_eq_of_notMem unneeded,
        calls, used]
  | linked absent memory sets calls used =>
      obtain rfl := (Prod.ext_iff.mp ended).2
      have needed := first_mem_missingTables less absent
      rw [missingTables_rest less sets.present_iff, ← Finset.card_erase_add_one needed,
        calls, used]
      exact and_iff_right memory
  | refused absent none =>
      exact absurd (Prod.ext_iff.mp ended).1 (show (0 : Int) ≠ -noMemory by decide)

noncomputable def mapEntry (bitmap : Bitmap) (flags : Word) (k : Nat) : Word :=
  BitVec.ofNat 32 (4096 * freeFrame bitmap k) ||| flags

theorem present_mapEntry (bitmap : Bitmap) {flags : Word} (present : Present flags)
    (k : Nat) : Present (mapEntry bitmap flags k) :=
  present_or _ present

/-- The end of a loop that found frames enough for pages `first`, …, `stop - 1`.  The
pages are mapped if the heap serves the tables, and all of them are mapped only
then. -/
structure AllocEnd (heap : PageHeap) (directory : Nat) (virtStart flags : Word)
    (before : Bitmap) (first stop : Nat) (s after : PagingState) : Prop where
  changes : ChangesRange directory virtStart first stop s after
  frames : HoldsFrames before after.bitmap 0 stop
  mapped : heap.Serves (missingTables s.ram directory virtStart first stop).card s.calls
      s.used →
    ∀ k, first ≤ k → k < stop →
      pageEntry after.ram directory (rangePage virtStart k) = mapEntry before flags k
  served : (∀ k, first ≤ k → k < stop →
      Present (pageEntry after.ram directory (rangePage virtStart k))) →
    heap.Serves (missingTables s.ram directory virtStart first stop).card s.calls s.used

section

variable {heap : PageHeap} {directory : Nat} {virtStart flags : Word}
  {before : Bitmap} {s middle after : PagingState}

theorem AllocEnd.cons {first stop : Nat} (aligned : pagingIsAligned virtStart = true)
    (less : first < stop) (short : stop ≤ 2 ^ 20)
    (sets : SetsEntry directory (rangePage virtStart first) (mapEntry before flags first)
      s middle)
    (serves : heap.Serves (missingTables s.ram directory virtStart first stop).card
        s.calls s.used ↔
      heap.Serves (missingTables middle.ram directory virtStart (first + 1) stop).card
        middle.calls middle.used)
    (rest : AllocEnd heap directory virtStart flags before (first + 1) stop middle after) :
    AllocEnd heap directory virtStart flags before first stop s after := by
  refine ⟨rest.changes.cons less sets, rest.frames, ?_, ?_⟩
  · intro served k lower upper
    by_cases here : k = first
    · subst here
      rw [rest.changes.entry_first aligned less short, sets.entry _ (rangePage_lt _ _),
        if_pos rfl]
    · exact rest.mapped (serves.mp served) k (by omega) upper
  · intro present
    exact serves.mpr (rest.served fun k lower upper => present k (by omega) upper)

theorem AllocEnd.lose {first stop : Nat} (aligned : pagingIsAligned virtStart = true)
    (less : first < stop) (short : stop ≤ 2 ^ 20) (ram : middle.ram = s.ram)
    (absent : ¬ Present (s.ram.load directory (rangePage virtStart first / 1024)))
    (none : heap.answer s.calls s.used = 0)
    (rest : AllocEnd heap directory virtStart flags before (first + 1) stop middle after) :
    AllocEnd heap directory virtStart flags before first stop s after := by
  refine ⟨rest.changes.skip ram, rest.frames, ?_, ?_⟩
  · intro served
    refine absurd none (served.first ?_)
    exact (Finset.card_pos.mpr ⟨_, first_mem_missingTables less absent⟩).ne'
  · intro present
    have found := present first le_rfl less
    rw [rest.changes.entry_first aligned less short, ram, pageEntry, if_neg absent]
      at found
    exact absurd found not_present_zero

theorem AllocEnd.of_bitmap {first stop : Nat} {bitmap : Bitmap}
    (ended : AllocEnd heap directory virtStart flags before first stop
      { s with bitmap := bitmap } after) :
    AllocEnd heap directory virtStart flags before first stop s after :=
  ⟨ended.changes.of_bitmap, ended.frames, ended.mapped, ended.served⟩

theorem vmmAllocLoop_end (heap : PageHeap) (flags : Word)
    (aligned : pagingIsAligned virtStart = true) (remaining i : Nat)
    (distinct : DistinctTables directory s.ram s.used)
    (holds : HoldsFrames before s.bitmap 0 i)
    (enough : i + remaining ≤ freeFrames before) (short : i + remaining ≤ 2 ^ 20) :
    ∃ after, vmmAllocLoop heap directory virtStart flags remaining i s = (true, after) ∧
      AllocEnd heap directory virtStart flags before i (i + remaining) s after := by
  induction remaining generalizing i s with
  | zero =>
      refine ⟨s, rfl, .refl distinct _ _, holds, fun _ k lower upper => by omega, ?_⟩
      intro _
      rw [Nat.add_zero, missingTables_empty]
      trivial
  | succ remaining ih =>
      obtain ⟨few, -⟩ | ⟨-, address, bitmap, granted, success, physical, held⟩ :=
        holds.grant
      · omega
      have value : BitVec.ofInt 32 address ||| flags = mapEntry before flags i := by
        rw [ofInt_of_toUInt32 physical, mapEntry]
      simp only [vmmAllocLoop, granted]
      rw [if_neg success, value]
      have less : i < i + (remaining + 1) := by omega
      have stop : i + 1 + remaining = i + (remaining + 1) := by omega
      have result := pagingSet_result heap (s := { s with bitmap := bitmap }) distinct
        (pageAt_aligned aligned i) (mapEntry before flags i)
      have bitmapEq := pagingSet_bitmap heap directory (pageAt virtStart i)
        (mapEntry before flags i) { s with bitmap := bitmap }
      generalize pagingSet heap directory (pageAt virtStart i) (mapEntry before flags i)
        { s with bitmap := bitmap } = pair at result bitmapEq
      have continued : DistinctTables directory pair.2.ram pair.2.used →
          ∃ after, vmmAllocLoop heap directory virtStart flags remaining (i + 1) pair.2 =
              (true, after) ∧
            AllocEnd heap directory virtStart flags before (i + 1) (i + (remaining + 1))
              pair.2 after := fun tables => by
        rw [← stop]
        exact ih (i + 1) tables (bitmapEq ▸ held) (by omega) (by omega)
      cases pair with
      | mk code next =>
          cases result with
          | stored present sets calls used =>
              obtain ⟨after, ran, rest⟩ := continued sets.distinct
              have ended := rest.cons aligned less short sets
                (SetResult.serves_iff less (.stored present sets calls used))
              exact ⟨after, ran, ended.of_bitmap⟩
          | linked absent memory sets calls used =>
              obtain ⟨after, ran, rest⟩ := continued sets.distinct
              have ended := rest.cons aligned less short sets
                (SetResult.serves_iff less (.linked absent memory sets calls used))
              exact ⟨after, ran, ended.of_bitmap⟩
          | refused absent none =>
              obtain ⟨after, ran, rest⟩ := continued distinct
              refine ⟨after, ran, AllocEnd.of_bitmap
                (AllocEnd.lose aligned less short ?_ absent none rest)⟩
              rfl

theorem vmmAllocLoop_short (heap : PageHeap) (directory : Nat) (virtStart flags : Word)
    (remaining i : Nat) (holds : HoldsFrames before s.bitmap 0 i)
    (some : i ≤ freeFrames before) (few : freeFrames before < i + remaining) :
    ∃ after, vmmAllocLoop heap directory virtStart flags remaining i s = (false, after) ∧
      HoldsFrames before after.bitmap 0 (freeFrames before) := by
  induction remaining generalizing i s with
  | zero => omega
  | succ remaining ih =>
      simp only [vmmAllocLoop]
      obtain ⟨all, exhausted⟩ | ⟨more, address, bitmap, granted, success, -, held⟩ :=
        holds.grant
      · have last : i = freeFrames before := Nat.le_antisymm some all
        rw [exhausted, if_pos rfl, ← last]
        exact ⟨_, rfl, holds⟩
      · rw [granted, if_neg success]
        apply ih (i + 1) _ (by omega) (by omega)
        rw [pagingSet_bitmap]
        exact held

theorem frameOf_mapEntry {k : Nat} (enough : k < freeFrames before)
    (low : flags.toNat < 4096) :
    tableOf (mapEntry before flags k) = 4096 * freeFrame before k := by
  have bound := (freeFrame_spec enough).1
  refine tableOf_or ⟨⟨_, rfl⟩, ?_⟩ low
  unfold pagingPageSize
  omega

theorem freeVmmLoop_turn (aligned : pagingIsAligned virtStart = true) (remaining : Nat)
    {i : Nat} (distinct : DistinctTables directory s.ram s.used)
    (present : Present (pageEntry s.ram directory (rangePage virtStart i))) :
    ∃ next, freeVmmLoop directory virtStart (remaining + 1) i s =
        freeVmmLoop directory virtStart remaining (i + 1) next ∧
      SetsEntry directory (rangePage virtStart i) 0 s next ∧
      next.bitmap = freePhysicalFrame s.bitmap
        (tableOf (pageEntry s.ram directory (rangePage virtStart i))) := by
  have tablePresent := present_directory present
  have entry : pageEntry s.ram directory (rangePage virtStart i) =
      s.ram.load (tableOf (s.ram.load directory (rangePage virtStart i / 1024)))
        (rangePage virtStart i % 1024) := if_pos tablePresent
  rw [entry] at present ⊢
  have sets := distinct.store (rangePage_lt virtStart i) tablePresent 0
  simp only [freeVmmLoop, pagingGetIndexes_of_aligned (pageAt_aligned aligned i)]
  unfold rangePage tableOf at *
  rw [if_pos tablePresent, if_pos present]
  exact ⟨_, rfl, ⟨sets.distinct, sets.entry, sets.kept, sets.present_iff⟩, rfl⟩

theorem freeVmmLoop_end (aligned : pagingIsAligned virtStart = true)
    (low : flags.toNat < 4096) (present : Present flags) (remaining i : Nat)
    (distinct : DistinctTables directory s.ram s.used)
    (holds : HoldsFrames before s.bitmap i (i + remaining))
    (enough : i + remaining ≤ freeFrames before) (short : i + remaining ≤ 2 ^ 20)
    (mapped : ∀ k, i ≤ k → k < i + remaining →
      pageEntry s.ram directory (rangePage virtStart k) = mapEntry before flags k) :
    ∃ after, freeVmmLoop directory virtStart remaining i s = (0, after) ∧
      ChangesRange directory virtStart i (i + remaining) s after ∧
      HoldsFrames before after.bitmap (i + remaining) (i + remaining) ∧
      ∀ k, i ≤ k → k < i + remaining →
        pageEntry after.ram directory (rangePage virtStart k) = 0 := by
  induction remaining generalizing i s with
  | zero => exact ⟨s, rfl, .refl distinct _ _, holds, fun k lower upper => by omega⟩
  | succ remaining ih =>
      have less : i < i + (remaining + 1) := by omega
      have stop : i + 1 + remaining = i + (remaining + 1) := by omega
      have free : i < freeFrames before := by omega
      have entry := mapped i le_rfl less
      obtain ⟨next, turn, sets, bitmap⟩ := freeVmmLoop_turn (i := i) aligned remaining
        distinct (by rw [entry]; exact present_mapEntry _ present i)
      rw [entry, frameOf_mapEntry free low] at bitmap
      have released := holds.release free
      rw [← bitmap, ← stop] at released
      obtain ⟨after, ran, changes, freed, cleared⟩ := ih (i + 1) sets.distinct released
        (by omega) (by omega) (by
          intro k lower upper
          have different : rangePage virtStart k ≠ rangePage virtStart i := fun same => by
            have := rangePage_inj aligned (by omega) (by omega) same
            omega
          rw [sets.entry _ (rangePage_lt virtStart k), if_neg different]
          exact mapped k (by omega) (by omega))
      rw [stop] at changes freed cleared
      refine ⟨after, turn.trans ran, changes.cons less sets, freed, ?_⟩
      intro k lower upper
      by_cases here : k = i
      · subst here
        rw [changes.entry_first aligned less short, sets.entry _ (rangePage_lt _ _),
          if_pos rfl]
      · exact cleared k (by omega) upper

end

end LazyOS.Memory
