import LazyOS.Fs.Contents

namespace LazyOS.Fs

open LazyOS.Data

/-! `free_file` next to the release loop of `delete_file`.  It follows the link before
it frees an entry, and frees the entry it has come to: the next link it reads is the
one that it has just overwritten. -/

def freeFileLoop : (turns : Nat) → (fileSector : Int) → Table → Option (Int × Table)
  | 0, _, _ => none
  | turns + 1, fileSector, table =>
      if table fileSector = endOfFile then some (fileSector, table)
      else
        let fileSector : Int := (table fileSector).toNat
        freeFileLoop turns fileSector (Function.update table fileSector freeEntry)

/-- `none` when `turns` turns are not enough. -/
def freeFile (turns : Nat) (fileSector : Int) (table : Table) : Option Table :=
  (freeFileLoop turns fileSector table).map fun ended =>
    Function.update ended.2 ended.1 freeEntry

instance (cell : Int) : Decidable (InTable cell) :=
  inferInstanceAs (Decidable (_ ∧ _))

/-- The entries from `cell` on are links of the table, and the last one ends the file.
No entry repeats, because a chain that ends does not come back. -/
structure WellFormedChain (table : Table) (cell : Int) (rest : List Int) : Prop where
  chain : TableChain table cell rest
  inside : ∀ current ∈ cell :: rest, InTable current
  taken : ∀ current ∈ cell :: rest, table current ≠ freeEntry

/-- `free_file` comes to an end with exactly the entries of the chain freed, which is
the table that the release loop of `delete_file` leaves. -/
def ReleasesChain (table : Table) (cell : Int) (rest : List Int) : Prop :=
  ∃ turns after, freeFile turns cell table = some after ∧
    after = clearCells freeEntry table (cell :: rest) ∧
    ∀ disk, ∃ looped last table' disk',
      deleteLoop looped cell table disk = some (last, table', disk') ∧
        Function.update table' last freeEntry = after

theorem freeFileLoop_free (turns : Nat) {table : Table} (free : table 0 = freeEntry) :
    freeFileLoop turns 0 table = none := by
  induction turns with
  | zero => rfl
  | succ turns ih =>
      have same : Function.update table 0 freeEntry = table := by
        rw [← free, Function.update_eq_self]
      simp only [freeFileLoop, free]
      rw [if_neg (by decide), freeEntry_toNat, Nat.cast_zero, same]
      exact ih

theorem freeFileLoop_linked (turns : Nat) {table : Table} {fileSector : Int}
    (free : table fileSector = freeEntry) :
    freeFileLoop turns fileSector table = none := by
  cases turns with
  | zero => rfl
  | succ turns =>
      simp only [freeFileLoop, free]
      rw [if_neg (by decide), freeEntry_toNat, Nat.cast_zero]
      exact freeFileLoop_free turns (Function.update_self ..)

theorem freeFile_never_ends (turns : Nat) {table : Table} {fileSector : Int}
    (goes : table fileSector ≠ endOfFile) : freeFile turns fileSector table = none := by
  unfold freeFile
  cases turns with
  | zero => rfl
  | succ turns =>
      simp only [freeFileLoop]
      rw [if_neg goes, freeFileLoop_linked turns (Function.update_self ..)]
      rfl

theorem freeFile_last {table : Table} {fileSector : Int}
    (ends : table fileSector = endOfFile) :
    freeFile 1 fileSector table = some (clearCells freeEntry table [fileSector]) := by
  unfold freeFile
  simp only [freeFileLoop, if_pos ends, Option.map_some]
  rw [← clearCells_cons]
  refine congrArg some (funext fun current => ?_)
  simp [clearCells]

theorem freeFile_releases_iff {table : Table} {cell : Int} {rest : List Int}
    (formed : WellFormedChain table cell rest) :
    ReleasesChain table cell rest ↔ rest = [] := by
  constructor
  · intro releases
    cases formed.chain with
    | last ends => rfl
    | link goes tail =>
        obtain ⟨turns, after, freed, -⟩ := releases
        rw [freeFile_never_ends turns goes] at freed
        cases freed
  · rintro rfl
    cases formed.chain with
    | last ends =>
        refine ⟨1, _, freeFile_last ends, rfl, fun disk => ?_⟩
        obtain ⟨last, table', disk', looped, cleared, -⟩ := deleteLoop_spec formed.chain
          formed.chain.nodup formed.inside (Nat.lt_succ_self _) disk
        exact ⟨_, last, table', disk', looped, cleared⟩

theorem freeFile_releases_iff_last_sector :
    ReleasesChain fragmentedTable 1 [] := by
  refine (freeFile_releases_iff ⟨.last rfl, ?_, ?_⟩).mpr rfl
  · decide
  · decide

/-- A file in the entries 0 and 2 is well formed, and freeing it never ends. -/
theorem chain_of_two_never_freed :
    WellFormedChain splitTable 0 [2] ∧ (∀ turns, freeFile turns 0 splitTable = none) ∧
      ¬ ReleasesChain splitTable 0 [2] := by
  have goes : splitTable 0 ≠ endOfFile := by decide
  have never := fun turns => freeFile_never_ends turns goes
  refine ⟨⟨?_, by decide, by decide⟩, never, fun releases => ?_⟩
  · exact tableChain_link fragmentedTable (by decide) (by decide)
  · obtain ⟨turns, after, freed, -⟩ := releases
    rw [never] at freed
    cases freed

end LazyOS.Fs
