import LazyOS.Data.Simulation
import LazyOS.Disk.Streamer

namespace LazyOS.Disk

open LazyOS.Data

/-! A stream with its position, and the array of bytes it stands for. -/

structure StreamState where
  disk : DiskImage
  pos : Nat

inductive StreamOp where
  | seek (pos : Nat)
  | read (out : Nat → Byte) (total : Nat)
  | write (src : Nat → Byte) (total : Nat)

def diskStreamerSeek (stream : StreamState) (pos : Nat) : StreamState :=
  { stream with pos := pos }

def StreamState.apply (stream : StreamState) :
    StreamOp → StreamState × Option (Nat → Byte)
  | .seek pos => (diskStreamerSeek stream pos, none)
  | .read out total =>
      let result := diskStreamerRead stream.disk stream.pos out total
      ({ stream with pos := result.2 }, some result.1)
  | .write src total =>
      let result := diskStreamerWrite stream.disk stream.pos src total
      ({ disk := result.1, pos := result.2 }, none)

def StreamOp.InRange (stream : StreamState) : StreamOp → Prop
  | .seek pos => pos < 2 ^ 31
  | .read _ total => stream.pos + total < 2 ^ 31
  | .write _ total => stream.pos + total < 2 ^ 31

structure FlatArray where
  bytes : Nat → Byte
  pos : Nat

def FlatArray.apply (array : FlatArray) : StreamOp → FlatArray × Option (Nat → Byte)
  | .seek pos => ({ array with pos := pos }, none)
  | .read out total =>
      ({ array with pos := array.pos + total },
        some fun k => if k < total then array.bytes (array.pos + k) else out k)
  | .write src total =>
      ({ bytes := fun position =>
          if array.pos ≤ position ∧ position < array.pos + total then
            src (position - array.pos)
          else array.bytes position
         pos := array.pos + total }, none)

def StreamState.flat (stream : StreamState) : FlatArray :=
  ⟨byteAt stream.disk, stream.pos⟩

theorem StreamState.flat_sector (stream : StreamState) (sector : Nat) {offset : Nat}
    (inside : offset < sectorSize) :
    stream.flat.bytes (sectorSize * sector + offset) = stream.disk sector offset :=
  byteAt_sector stream.disk sector inside

theorem flat_apply (stream : StreamState) (op : StreamOp) :
    stream.flat.apply op = ((stream.apply op).1.flat, (stream.apply op).2) := by
  cases op with
  | seek pos => rfl
  | read out total =>
      simp only [StreamState.apply, FlatArray.apply, StreamState.flat,
        diskStreamerRead_eq, Int.toNat_natCast, Prod.mk.injEq, Option.some.injEq,
        true_and]
      funext k
      simp [copyBytes]
  | write src total =>
      have written := diskStreamerWriteLoop_spec total total stream.pos src stream.disk
        le_rfl
      simp only [StreamState.apply, FlatArray.apply, StreamState.flat,
        diskStreamerWrite, Int.toNat_natCast, written.1, Prod.mk.injEq, and_true,
        FlatArray.mk.injEq]
      funext position
      exact (written.2 position).symm

theorem apply_pos_lt (stream : StreamState) (op : StreamOp) (fits : op.InRange stream) :
    (stream.apply op).1.pos < 2 ^ 31 := by
  have moved := congrArg (fun answered => answered.1.pos) (flat_apply stream op)
  change _ = (stream.apply op).1.pos at moved
  rw [← moved]
  cases op with
  | seek pos => exact fits
  | read out total => exact fits
  | write src total => exact fits

/-- Any seeks, reads and writes on a stream behave as on one flat array of bytes:
the reads return the same, and so do the sectors and the position left at the end. -/
theorem streamer_refines_flat {stream : StreamState} {ops : List StreamOp}
    (start : stream.pos < 2 ^ 31)
    (fits : Admits StreamState.apply (fun stream op => op.InRange stream) stream ops) :
    (answers StreamState.apply stream ops).2 =
        (answers FlatArray.apply stream.flat ops).2 ∧
      (∀ sector offset, offset < sectorSize →
        (answers StreamState.apply stream ops).1.disk sector offset =
          (answers FlatArray.apply stream.flat ops).1.bytes
            (sectorSize * sector + offset)) ∧
      (answers StreamState.apply stream ops).1.pos =
        (answers FlatArray.apply stream.flat ops).1.pos ∧
      (answers StreamState.apply stream ops).1.pos < 2 ^ 31 := by
  have viewed := answers_view StreamState.flat
    (fun stream op _ => flat_apply stream op) fits
  rw [viewed]
  refine ⟨rfl, fun sector offset inside => ?_, rfl, ?_⟩
  · exact (StreamState.flat_sector _ sector inside).symm
  · exact answers_invariant (fun stream => stream.pos < 2 ^ 31)
      (fun stream op _ inRange => apply_pos_lt stream op inRange) start fits

def acrossSectors : List StreamOp :=
  [.seek 500, .write (fun k => BitVec.ofNat 8 k) 600, .seek 1000,
    .read (fun _ => 0) 200]

theorem streamer_refines_flat_across_sectors :
    (answers StreamState.apply ⟨fun _ _ => 0xFF, 0⟩ acrossSectors).2 =
      (answers FlatArray.apply (StreamState.flat ⟨fun _ _ => 0xFF, 0⟩)
        acrossSectors).2 := by
  have fits : Admits StreamState.apply (fun stream op => op.InRange stream)
      ⟨fun _ _ => 0xFF, 0⟩ acrossSectors := by
    refine ⟨?_, ?_, ?_, ?_, trivial⟩
    · exact (by decide : 500 < 2 ^ 31)
    · exact (by decide : 500 + 600 < 2 ^ 31)
    · exact (by decide : 1000 < 2 ^ 31)
    · exact (by decide : 1000 + 200 < 2 ^ 31)
  exact (streamer_refines_flat (by decide) fits).1

end LazyOS.Disk
