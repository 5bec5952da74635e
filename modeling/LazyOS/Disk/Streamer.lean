import LazyOS.Config
import LazyOS.Data.Word

namespace LazyOS.Disk

open LazyOS.Data

/-! The disk as an array of sectors and the byte stream of `streamer.c` over it.
`disk_read_block` and `disk_write_block` move one sector; a stream reads the whole
sector around each piece and, for a write, puts it back. -/

abbrev Sector := Nat → Byte

abbrev DiskImage := Nat → Sector

def diskReadBlock (disk : DiskImage) (lba : Nat) : Sector := disk lba

def diskWriteBlock (disk : DiskImage) (lba : Nat) (buff : Sector) : DiskImage :=
  Function.update disk lba buff

def copyBytes (out : Nat → Byte) (dst count : Nat) (src : Nat → Byte) :
    Nat → Byte :=
  fun k => if dst ≤ k ∧ k < dst + count then src (k - dst) else out k

def pieceLength (remaining offset : Nat) : Nat :=
  if remaining > sectorSize - offset then sectorSize - offset else remaining

/-- The read loop.  Every turn reads at least one byte, so `remaining` turns are
enough. -/
def diskStreamerReadLoop (disk : DiskImage) :
    (turns remaining pos dst : Nat) → (Nat → Byte) → (Nat → Byte) × Nat
  | 0, _, pos, _, out => (out, pos)
  | turns + 1, remaining, pos, dst, out =>
      if remaining = 0 then (out, pos)
      else
        let sector := pos / sectorSize
        let offset := pos % sectorSize
        let buff := diskReadBlock disk sector
        let toRead := pieceLength remaining offset
        let out := copyBytes out dst toRead fun i => buff (offset + i)
        diskStreamerReadLoop disk turns (remaining - toRead) (pos + toRead)
          (dst + toRead) out

def diskStreamerRead (disk : DiskImage) (pos : Nat) (out : Nat → Byte) (total : Int) :
    (Nat → Byte) × Nat :=
  diskStreamerReadLoop disk total.toNat total.toNat pos 0 out

def diskStreamerWriteLoop :
    (turns remaining pos : Nat) → (src : Nat → Byte) → DiskImage → DiskImage × Nat
  | 0, _, pos, _, disk => (disk, pos)
  | turns + 1, remaining, pos, src, disk =>
      if remaining = 0 then (disk, pos)
      else
        let sector := pos / sectorSize
        let offset := pos % sectorSize
        let buff := diskReadBlock disk sector
        let toWrite := pieceLength remaining offset
        let buff := copyBytes buff offset toWrite src
        let disk := diskWriteBlock disk sector buff
        diskStreamerWriteLoop turns (remaining - toWrite) (pos + toWrite)
          (fun i => src (toWrite + i)) disk

def diskStreamerWrite (disk : DiskImage) (pos : Nat) (src : Nat → Byte) (total : Int) :
    DiskImage × Nat :=
  diskStreamerWriteLoop total.toNat total.toNat pos src disk

def byteAt (disk : DiskImage) (position : Nat) : Byte :=
  disk (position / sectorSize) (position % sectorSize)

theorem byteAt_sector (disk : DiskImage) (sector : Nat) {offset : Nat}
    (inside : offset < sectorSize) :
    byteAt disk (sectorSize * sector + offset) = disk sector offset := by
  unfold byteAt
  rw [Nat.mul_add_div (by decide), Nat.div_eq_of_lt inside, Nat.add_zero,
    Nat.mul_add_mod, Nat.mod_eq_of_lt inside]

theorem pieceLength_pos {remaining offset : Nat} (some : 0 < remaining)
    (inside : offset < sectorSize) : 0 < pieceLength remaining offset := by
  unfold pieceLength
  split <;> omega

theorem pieceLength_le (remaining offset : Nat) :
    pieceLength remaining offset ≤ remaining := by
  unfold pieceLength
  split <;> omega

theorem pieceLength_inside (remaining : Nat) {offset : Nat}
    (inside : offset < sectorSize) :
    offset + pieceLength remaining offset ≤ sectorSize := by
  unfold pieceLength
  split <;> omega

theorem diskStreamerReadLoop_spec (disk : DiskImage) (turns remaining pos dst : Nat)
    (out : Nat → Byte) (enough : remaining ≤ turns) :
    diskStreamerReadLoop disk turns remaining pos dst out =
      (copyBytes out dst remaining fun i => byteAt disk (pos + i),
        pos + remaining) := by
  induction turns generalizing remaining pos dst out with
  | zero =>
      obtain rfl : remaining = 0 := by omega
      simp only [diskStreamerReadLoop, Nat.add_zero, Prod.mk.injEq, and_true]
      funext k
      simp only [copyBytes]
      rw [if_neg (by omega)]
  | succ turns ih =>
      simp only [diskStreamerReadLoop]
      by_cases done : remaining = 0
      · subst done
        rw [if_pos rfl]
        simp only [Nat.add_zero, Prod.mk.injEq, and_true]
        funext k
        simp only [copyBytes]
        rw [if_neg (by omega)]
      · have offsetLt : pos % sectorSize < sectorSize := Nat.mod_lt _ (by decide)
        have positive := pieceLength_pos (Nat.pos_of_ne_zero done) offsetLt
        have le := pieceLength_le remaining (pos % sectorSize)
        have inside := pieceLength_inside remaining offsetLt
        generalize pieceLength remaining (pos % sectorSize) = piece at *
        rw [if_neg done, ih _ _ _ _ (by omega)]
        refine Prod.ext ?_ (by simp only; omega)
        funext k
        simp only [copyBytes]
        by_cases later : dst + piece ≤ k ∧ k < dst + piece + (remaining - piece)
        · rw [if_pos later, if_pos (by omega)]
          congr 1
          omega
        · rw [if_neg later]
          by_cases here : dst ≤ k ∧ k < dst + piece
          · rw [if_pos here, if_pos (by omega)]
            unfold byteAt diskReadBlock sectorSize at *
            congr 1 <;> omega
          · rw [if_neg here, if_neg (by omega)]

theorem diskStreamerRead_eq (disk : DiskImage) (pos : Nat) (out : Nat → Byte)
    (total : Int) :
    diskStreamerRead disk pos out total =
      (copyBytes out 0 total.toNat fun i => byteAt disk (pos + i),
        pos + total.toNat) :=
  diskStreamerReadLoop_spec disk _ _ pos 0 out le_rfl

theorem byteAt_writePiece (disk : DiskImage) (pos piece : Nat) (src : Nat → Byte)
    (inside : pos % sectorSize + piece ≤ sectorSize) (position : Nat) :
    byteAt (diskWriteBlock disk (pos / sectorSize)
        (copyBytes (diskReadBlock disk (pos / sectorSize)) (pos % sectorSize)
          piece src)) position =
      if pos ≤ position ∧ position < pos + piece then src (position - pos)
      else byteAt disk position := by
  unfold byteAt diskWriteBlock diskReadBlock sectorSize at *
  by_cases sameSector : position / 512 = pos / 512
  · rw [sameSector, Function.update_self]
    simp only [copyBytes]
    by_cases written : pos ≤ position ∧ position < pos + piece
    · rw [if_pos written, if_pos (by omega)]
      congr 1
      omega
    · rw [if_neg written, if_neg (by omega)]
  · rw [Function.update_of_ne sameSector, if_neg (by omega)]

theorem diskStreamerWriteLoop_spec (turns remaining pos : Nat)
    (src : Nat → Byte) (disk : DiskImage) (enough : remaining ≤ turns) :
    (diskStreamerWriteLoop turns remaining pos src disk).2 = pos + remaining ∧
    ∀ position,
      byteAt (diskStreamerWriteLoop turns remaining pos src disk).1 position =
        if pos ≤ position ∧ position < pos + remaining then src (position - pos)
        else byteAt disk position := by
  induction turns generalizing remaining pos src disk with
  | zero =>
      obtain rfl : remaining = 0 := by omega
      refine ⟨rfl, fun position => ?_⟩
      rw [if_neg (by omega)]
      rfl
  | succ turns ih =>
      simp only [diskStreamerWriteLoop]
      by_cases done : remaining = 0
      · subst done
        rw [if_pos rfl]
        refine ⟨rfl, fun position => ?_⟩
        rw [if_neg (by omega)]
      · have offsetLt : pos % sectorSize < sectorSize := Nat.mod_lt _ (by decide)
        have positive := pieceLength_pos (Nat.pos_of_ne_zero done) offsetLt
        have le := pieceLength_le remaining (pos % sectorSize)
        have inside := pieceLength_inside remaining offsetLt
        generalize pieceLength remaining (pos % sectorSize) = piece at *
        rw [if_neg done]
        obtain ⟨ends, bytes⟩ := ih (remaining - piece) (pos + piece)
          (fun i => src (piece + i)) _ (by omega)
        refine ⟨by rw [ends]; omega, fun position => ?_⟩
        rw [bytes position, byteAt_writePiece disk pos piece src inside]
        by_cases later : pos + piece ≤ position ∧
            position < pos + piece + (remaining - piece)
        · rw [if_pos later, if_pos (by omega)]
          congr 1
          omega
        · rw [if_neg later]
          by_cases here : pos ≤ position ∧ position < pos + piece
          · rw [if_pos here, if_pos (by omega)]
          · rw [if_neg here, if_neg (by omega)]

/-- Writing through the stream replaces the flat bytes behind its position and no
others. -/
theorem byteAt_diskStreamerWrite (disk : DiskImage) (pos : Nat) (src : Nat → Byte)
    (total : Int) (position : Nat) :
    byteAt (diskStreamerWrite disk pos src total).1 position =
      if pos ≤ position ∧ position < pos + total.toNat then src (position - pos)
      else byteAt disk position :=
  (diskStreamerWriteLoop_spec total.toNat total.toNat pos src disk le_rfl).2 position

theorem diskStreamerWriteLoop_sector (turns remaining pos : Nat) (src : Nat → Byte)
    (disk : DiskImage) {sector : Nat}
    (outside : sector < pos / sectorSize ∨ pos + remaining ≤ sectorSize * sector) :
    (diskStreamerWriteLoop turns remaining pos src disk).1 sector = disk sector := by
  induction turns generalizing remaining pos src disk with
  | zero => rfl
  | succ turns ih =>
      simp only [diskStreamerWriteLoop]
      by_cases done : remaining = 0
      · rw [if_pos done]
      · have le := pieceLength_le remaining (pos % sectorSize)
        generalize pieceLength remaining (pos % sectorSize) = piece at *
        have other : sector ≠ pos / sectorSize := by
          unfold sectorSize at outside ⊢
          omega
        rw [if_neg done, ih]
        · exact Function.update_of_ne other _ _
        · unfold sectorSize at outside ⊢
          omega

theorem diskStreamerWrite_sector (disk : DiskImage) (pos : Nat) (src : Nat → Byte)
    {total : Int} {sector : Nat}
    (outside : sector < pos / sectorSize ∨ pos + total.toNat ≤ sectorSize * sector) :
    (diskStreamerWrite disk pos src total).1 sector = disk sector :=
  diskStreamerWriteLoop_sector total.toNat total.toNat pos src disk outside

end LazyOS.Disk
