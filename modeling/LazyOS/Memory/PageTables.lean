import LazyOS.Memory.Paging

namespace LazyOS.Memory

open LazyOS.Data

/-! Words in page-aligned blocks, and the entries that point to such blocks. -/

structure IsPage (block : Nat) : Prop where
  aligned : pagingPageSize ∣ block
  inside : block + pagingPageSize ≤ 2 ^ 32

def tableOf (entry : Word) : Nat := (frameOf entry).toNat

theorem word_index_inj {left right i j : Nat} (leftPage : IsPage left)
    (rightPage : IsPage right) (i_lt : i < 1024) (j_lt : j < 1024)
    (same : left + 4 * i = right + 4 * j) : left = right ∧ i = j := by
  obtain ⟨a, leftEq⟩ := leftPage.aligned
  obtain ⟨b, rightEq⟩ := rightPage.aligned
  unfold pagingPageSize at leftEq rightEq
  omega

@[simp]
theorem Ram.load_store_self (ram : Ram) (base index : Nat) (value : Word) :
    (ram.store base index value).load base index = value :=
  Function.update_self ..

theorem Ram.load_store_of_index (ram : Ram) {base i j : Nat} (value : Word)
    (different : j ≠ i) :
    (ram.store base i value).load base j = ram.load base j :=
  Function.update_of_ne (by omega) ..

theorem Ram.load_store_of_page (ram : Ram) {base other i j : Nat} (value : Word)
    (basePage : IsPage base) (otherPage : IsPage other) (i_lt : i < 1024)
    (j_lt : j < 1024) (different : other ≠ base) :
    (ram.store base i value).load other j = ram.load other j := by
  apply Function.update_of_ne
  intro same
  exact different (word_index_inj otherPage basePage j_lt i_lt same).1

theorem Ram.load_clear_self (ram : Ram) (base : Nat) {j : Nat} (j_lt : j < 1024) :
    (ram.clear base (4 * pagingTotalEntriesPerTable)).load base j = 0 := by
  have inside : j < pagingTotalEntriesPerTable := j_lt
  simp only [Ram.clear, Ram.load]
  rw [if_pos (by omega)]

theorem Ram.load_clear_of_page (ram : Ram) {base other bytes j : Nat}
    (basePage : IsPage base) (otherPage : IsPage other)
    (short : bytes ≤ pagingPageSize) (j_lt : j < 1024) (different : other ≠ base) :
    (ram.clear base bytes).load other j = ram.load other j := by
  obtain ⟨a, baseEq⟩ := basePage.aligned
  obtain ⟨b, otherEq⟩ := otherPage.aligned
  unfold pagingPageSize at baseEq otherEq short
  simp only [Ram.clear, Ram.load]
  rw [if_neg (by omega)]

theorem frameOf_getLsbD (entry : Word) (i : Nat) :
    (frameOf entry).getLsbD i = (entry.getLsbD i && decide (12 ≤ i)) := by
  have mask : ∀ i : Fin 32, (0xfffff000 : Word).getLsbD i = decide (12 ≤ i.val) := by
    decide
  unfold frameOf
  rw [BitVec.getLsbD_and]
  by_cases inside : i < 32
  · rw [mask ⟨i, inside⟩]
  · rw [BitVec.getLsbD_of_ge _ _ (by omega)]
    simp

theorem frameOf_eq (entry : Word) : frameOf entry = (entry >>> 12) <<< 12 := by
  apply BitVec.eq_of_getLsbD_eq
  intro i inside
  rw [frameOf_getLsbD, BitVec.getLsbD_shiftLeft, BitVec.getLsbD_ushiftRight]
  by_cases upper : 12 ≤ i
  · have restored : 12 + (i - 12) = i := by omega
    simp [inside, upper, restored]
  · simp [upper]

theorem tableOf_eq (entry : Word) : tableOf entry = entry.toNat / 4096 * 4096 := by
  have bound := entry.isLt
  unfold tableOf
  rw [frameOf_eq, BitVec.toNat_shiftLeft, BitVec.toNat_ushiftRight,
    Nat.shiftRight_eq_div_pow, Nat.shiftLeft_eq]
  omega

theorem tableOf_or {block : Nat} (page : IsPage block) {flags : Word}
    (low : flags.toNat < 4096) :
    tableOf (BitVec.ofNat 32 block ||| flags) = block := by
  obtain ⟨⟨k, aligned⟩, inside⟩ := page
  unfold pagingPageSize at aligned inside
  have blockEq : block % 2 ^ 32 = 2 ^ 12 * k := by omega
  rw [tableOf_eq, BitVec.toNat_or, BitVec.toNat_ofNat, blockEq,
    ← Nat.two_pow_add_eq_or_of_lt (by omega : flags.toNat < 2 ^ 12)]
  omega

theorem or_and_ne_zero (entry : Word) {flags mask : Word} (set : flags &&& mask ≠ 0) :
    (entry ||| flags) &&& mask ≠ 0 := by
  intro cleared
  apply set
  apply BitVec.eq_of_getLsbD_eq
  intro i inside
  have bit := congrArg (fun word : Word => word.getLsbD i) cleared
  simp only [BitVec.getLsbD_and, BitVec.getLsbD_or] at bit ⊢
  cases flag : flags.getLsbD i with
  | false => simp
  | true => simpa [flag] using bit

theorem present_or (entry : Word) {flags : Word} (present : Present flags) :
    Present (entry ||| flags) :=
  or_and_ne_zero entry present

theorem not_present_zero : ¬ Present 0 := by decide

end LazyOS.Memory
