import Mathlib.Algebra.BigOperators.Fin
import LazyOS.Data.Simulation
import LazyOS.Fs.ReadBack

namespace LazyOS.Fs

open LazyOS.Data
open LazyOS.Disk

/-! What the file system is for: 224 places, each of them empty or with one file in it,
and no clusters, tables or sectors. -/

structure StoredFile where
  name : Fin 8 → Byte
  ext : Fin 3 → Byte
  timeStamp : RtcTime
  attr : Byte
  contents : List Byte
  named : name 0 ≠ 0
  fits : contents.length < 2 ^ 32

abbrev Store := Fin 224 → Option StoredFile

def shortName (name : CString) : List Byte :=
  ((List.range 8).map name).takeWhile (· ≠ 0)

/-- A file answers to every name that its own begins with. -/
def StoredFile.Called (file : StoredFile) (name : CString) : Prop :=
  shortName name <+: List.ofFn file.name

instance (file : StoredFile) (name : CString) : Decidable (file.Called name) :=
  inferInstanceAs (Decidable (_ <+: _))

namespace Store

def empty : Store := fun _ => none

def emptySlot (store : Store) : Option (Fin 224) :=
  (List.finRange 224).find? fun slot => (store slot).isNone

def find (store : Store) (name : CString) : Option (Fin 224) :=
  (List.finRange 224).find? fun slot =>
    (store slot).any fun file => decide (file.Called name)

def clusters (store : Store) : Nat :=
  ∑ slot, (store slot).elim 0 fun file => clusterCount file.contents.length

def listing (store : Store) : List Byte :=
  (List.finRange 224).flatMap fun slot =>
    (store slot).elim [] fun file =>
      List.ofFn file.name ++ literal "." ++ List.ofFn file.ext ++ literal "  " ++
        printTime file.timeStamp ++ literal "\n"

end Store

@[simp]
theorem dataBytes_length (data : Int → Byte) (size : Nat) :
    (dataBytes data size).length = size := by
  unfold dataBytes
  rw [List.length_map, List.length_range]

theorem CreateArgs.named (args : CreateArgs) :
    (fieldText args.nameT : Fin 8 → Byte) 0 ≠ 0 :=
  fieldText_zero_ne args.nameT

theorem CreateArgs.contents_fit (args : CreateArgs) :
    (dataBytes args.data args.size.toNat).length < 2 ^ 32 := by
  rw [dataBytes_length]
  exact args.size.isLt

def CreateArgs.stored (args : CreateArgs) : StoredFile where
  name := fieldText args.nameT
  ext := fieldText args.extT
  timeStamp := args.timeStamp
  attr := args.attributeT
  contents := dataBytes args.data args.size.toNat
  named := args.named
  fits := args.contents_fit

def Store.step (store : Store) : FsOp → Store × List Byte
  | .create args =>
      match store.emptySlot with
      | none => (store, [])
      | some slot => (Function.update store slot (some args.stored), [])
  | .delete name =>
      match store.find name with
      | none => (store, literal "NO FILE FOUND")
      | some slot => (Function.update store slot none, [])
  | .read name =>
      match (store.find name).bind store with
      | none => (store, literal "NO FILE FOUND\n")
      | some file => (store, shownText file.contents ++ literal "\n")
  | .list => (store, store.listing)

/-- There is a place and room within `limit` clusters for what is created, and names
are not empty. -/
def Store.Allows (limit : Nat) (store : Store) : FsOp → Prop
  | .create args => store.emptySlot ≠ none ∧
      store.clusters + clusterCount args.size.toNat ≤ limit
  | .delete name => name 0 ≠ 0
  | .read name => name 0 ≠ 0
  | .list => True

theorem shortName_length (name : CString) : (shortName name).length ≤ 8 := by
  unfold shortName
  refine (List.takeWhile_prefix _).length_le.trans ?_
  rw [List.length_map, List.length_range]

theorem strnlenLoop_eq (name : CString) (remaining i : Nat) :
    strnlenLoop name remaining i =
      i + (((List.range' i remaining).map name).takeWhile (· ≠ 0)).length := by
  induction remaining generalizing i with
  | zero => rfl
  | succ remaining ih =>
      rw [List.range'_succ, List.map_cons]
      simp only [strnlenLoop]
      by_cases ended : name i = 0
      · rw [if_pos ended, List.takeWhile_cons_of_neg (by simp [ended])]
        rfl
      · rw [if_neg ended, List.takeWhile_cons_of_pos (by simpa using ended), ih,
          List.length_cons]
        omega

theorem strnlen_eq_shortName (name : CString) : strnlen name 8 = (shortName name).length := by
  unfold strnlen shortName
  rw [strnlenLoop_eq, Nat.zero_add, List.range_eq_range']

theorem getElem_shortName {name : CString} {k : Nat} (inside : k < (shortName name).length) :
    (shortName name)[k] = name k := by
  have bound := inside.trans_le (shortName_length name)
  unfold shortName at inside ⊢
  rw [List.IsPrefix.getElem (List.takeWhile_prefix _) inside, List.getElem_map,
    List.getElem_range]

theorem compFileName_iff_begins (stored : Fin 8 → Byte) (name : CString) :
    compFileName stored name = true ↔ shortName name <+: List.ofFn stored := by
  unfold compFileName
  simp only [decide_eq_true_eq, strnlen_eq_shortName]
  rw [List.prefix_iff_getElem]
  constructor
  · intro same
    refine ⟨by rw [List.length_ofFn]; exact shortName_length name, fun k inside => ?_⟩
    rw [getElem_shortName inside, List.getElem_ofFn]
    exact (same ⟨k, inside.trans_le (shortName_length name)⟩ inside).symm
  · rintro ⟨_, same⟩ k below
    have here := same k below
    rw [getElem_shortName below, List.getElem_ofFn] at here
    exact here.symm

end LazyOS.Fs
