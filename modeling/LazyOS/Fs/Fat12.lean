import LazyOS.Disk.Streamer
import LazyOS.Str

namespace LazyOS.Fs

open LazyOS.Data
open LazyOS.Disk

/-! The file system of `fat12.c`: a table of cluster links, a root directory of
224 slots, and their copies on the disk.  Streams and buffers come from `kzalloc`,
which is taken to succeed. -/

def totalFat12Entreis : Nat := 2648

def endOfFile : Half := 0xFFF

def freeEntry : Half := 0x00

def startingDataSector : Nat := 233

def fat1Sector : Nat := 202

def startRootDir : Nat := 219

structure RtcTime where
  seconds : Byte
  minutes : Byte
  hours : Byte
  day : Byte
  month : Byte
  year : Byte
deriving DecidableEq

/-- A directory slot with the padding the compiler puts before `first_cluster`
and before `size`. -/
structure FileDir where
  name : Fin 8 → Byte
  ext : Fin 3 → Byte
  pad : Byte
  firstCluster : Half
  attr : Byte
  timeStamp : RtcTime
  padding : Fin 3 → Byte
  size : Word
deriving DecidableEq

abbrev RootDir := Fin 224 → FileDir

/-- The memory seen from the `fat12_table` pointer; the table itself is
`[0, totalFat12Entreis)`. -/
abbrev Table := Int → Half

structure FileSystem where
  fat12Table : Table
  rootDir : RootDir
  disk : DiskImage
  screen : List Byte

def sizeofFileDir : Nat := 28

def FileDir.bytes (file : FileDir) : Nat → Byte := fun k =>
  if name : k < 8 then file.name ⟨k, name⟩
  else if ext : k - 8 < 3 then file.ext ⟨k - 8, ext⟩
  else if k = 11 then file.pad
  else if k < 14 then leByte file.firstCluster.toNat (k - 12)
  else if k = 14 then file.attr
  else if k = 15 then file.timeStamp.seconds
  else if k = 16 then file.timeStamp.minutes
  else if k = 17 then file.timeStamp.hours
  else if k = 18 then file.timeStamp.day
  else if k = 19 then file.timeStamp.month
  else if k = 20 then file.timeStamp.year
  else if padding : k - 21 < 3 then file.padding ⟨k - 21, padding⟩
  else leByte file.size.toNat (k - 24)

def FileDir.ofBytes (bytes : Nat → Byte) : FileDir where
  name := fun i => bytes i
  ext := fun i => bytes (8 + i)
  pad := bytes 11
  firstCluster := BitVec.ofNat 16 (leValue 2 fun k => bytes (12 + k))
  attr := bytes 14
  timeStamp := ⟨bytes 15, bytes 16, bytes 17, bytes 18, bytes 19, bytes 20⟩
  padding := fun i => bytes (21 + i)
  size := BitVec.ofNat 32 (leValue 4 fun k => bytes (24 + k))

/-- `memset(&root_dir[pos], 0x00, sizeof(file_dir))`. -/
def FileDir.zero : FileDir := FileDir.ofBytes fun _ => 0

def RootDir.bytes (root : RootDir) : Nat → Byte := fun k =>
  if slot : k / sizeofFileDir < 224 then
    (root ⟨k / sizeofFileDir, slot⟩).bytes (k % sizeofFileDir)
  else 0

def RootDir.ofBytes (bytes : Nat → Byte) : RootDir := fun slot =>
  FileDir.ofBytes fun k => bytes (sizeofFileDir * slot + k)

def sizeofRootDir : Nat := sizeofFileDir * 224

def Table.bytes (table : Table) : Nat → Byte := fun k =>
  leByte (table (k / 2 : Nat)).toNat (k % 2)

def Table.store (table : Table) (bytes : Nat → Byte) : Table := fun i =>
  if i < 0 then table i
  else BitVec.ofNat 16 (leValue 2 fun k => bytes (2 * i.toNat + k))

def readFat12Table (table : Table) (disk : DiskImage) : Table :=
  table.store
    (diskStreamerRead disk (fat1Sector * sectorSize) table.bytes
      totalFat12Entreis).1

/-- `ram` is what surrounds the memory `kzalloc` returns for the table. -/
def fat12TableInit (ram : Table) (disk : DiskImage) : Table :=
  readFat12Table
    (fun i => if 0 ≤ i ∧ i < totalFat12Entreis then 0 else ram i) disk

def findNextFreeLoop (table : Table) : (remaining i : Nat) → Int
  | 0, _ => -1
  | remaining + 1, i =>
      if table i = freeEntry then i else findNextFreeLoop table remaining (i + 1)

def findNextFree (table : Table) (start : Nat) : Int :=
  findNextFreeLoop table (totalFat12Entreis - start) start

/-- The linking loop; `none` for the last cluster is `-NO_MEMORY`, with the links
made so far left in the table. -/
def allocateLoop : (remaining current : Nat) → Table → Option Nat × Table
  | 0, current, table => (some current, table)
  | remaining + 1, current, table =>
      let next := findNextFree table (current + 1)
      if next = -1 then (none, table)
      else
        allocateLoop remaining next.toNat
          (Function.update table current (BitVec.ofInt 16 next))

def fat12Allocate (table : Table) (size : Nat) : Int × Table :=
  let sectorsNeeded := (size + 511) % 2 ^ 32 / sectorSize
  let first := findNextFree table 0
  if first = -1 then (-noMemory, table)
  else
    match allocateLoop (sectorsNeeded - 1) first.toNat table with
    | (none, table) => (-noMemory, table)
    | (some current, table) =>
        (startingDataSector + first, Function.update table current endOfFile)

/-- Bound on the turns of a walk along the links.  A link names one of `2 ^ 16`
entries, so a walk that goes on for longer has come back to where it was and never
ends; `none` stands for that. -/
def walkLimit : Nat := 2 ^ 17

structure WriteCursor where
  dataSize : Int
  offset : Int
  next : Half
  toWrite : Int

def clusterPos (next : Int) : Nat :=
  ((next + startingDataSector) * sectorSize).toNat

def writeDataLoop (table : Table) (data : Int → Byte) :
    (turns : Nat) → WriteCursor → DiskImage → Option (WriteCursor × DiskImage)
  | 0, _, _ => none
  | turns + 1, cursor, disk =>
      if table cursor.next.toNat = endOfFile then some (cursor, disk)
      else
        let toWrite :=
          if cursor.dataSize > sectorSize then (sectorSize : Int)
          else cursor.dataSize
        let disk :=
          (diskStreamerWrite disk (clusterPos cursor.next.toNat)
            (fun k => data (cursor.offset + k)) toWrite).1
        writeDataLoop table data turns
          { dataSize := cursor.dataSize - toWrite
            offset := cursor.offset + toWrite
            next := table cursor.next.toNat
            toWrite := toWrite } disk

def writeDataIntoMemory (table : Table) (disk : DiskImage) (f : FileDir)
    (data : Int → Byte) : Option DiskImage :=
  let dataSize := toInt32 f.size.toNat
  let next := f.firstCluster - BitVec.ofNat 16 startingDataSector
  let toWrite := if dataSize > sectorSize then (sectorSize : Int) else dataSize
  match writeDataLoop table data walkLimit ⟨dataSize, 0, next, toWrite⟩ disk with
  | none => none
  | some (cursor, disk) =>
      -- The last piece is written with the length of the one before it.
      some (diskStreamerWrite disk (clusterPos cursor.next.toNat)
        (fun k => data (cursor.offset + k)) cursor.toWrite).1

def flushTable (table : Table) (disk : DiskImage) : DiskImage :=
  (diskStreamerWrite disk (fat1Sector * sectorSize) table.bytes
    (2 * totalFat12Entreis : Nat)).1

def flushRootDir (root : RootDir) (disk : DiskImage) : DiskImage :=
  (diskStreamerWrite disk (startRootDir * sectorSize) root.bytes
    sizeofRootDir).1

def writeIntoMemory (fs : FileSystem) (file : FileDir) (data : Int → Byte) :
    Option FileSystem :=
  match writeDataIntoMemory fs.fat12Table fs.disk file data with
  | none => none
  | some disk =>
      some { fs with
        disk := flushRootDir fs.rootDir (flushTable fs.fat12Table disk) }

def fieldText {width : Nat} (text : CString) : Fin width → Byte := fun i =>
  if text i ≠ 0 ∧ (i : Nat) < strnlen text width then text i else 0x20

def InUse (file : FileDir) : Prop := file.name 0 ≠ 0

def freeSlot (root : RootDir) : Option (Fin 224) :=
  (List.finRange 224).find? fun i => (root i).name 0 = 0

/-- `newFile` is the uninitialised local of the source: its padding reaches the
directory.  The result is the slot filled, or `none` for the null pointer. -/
def createFile (fs : FileSystem) (newFile : FileDir) (timeStamp : RtcTime)
    (nameT extT : CString) (data : Int → Byte) (size : Word)
    (attributeT : Byte) : Option (Option (Fin 224) × FileSystem) :=
  let allocated := fat12Allocate fs.fat12Table size.toNat
  let newFile : FileDir := { newFile with
    name := fieldText nameT
    ext := fieldText extT
    size := size
    timeStamp := timeStamp
    attr := attributeT
    firstCluster := BitVec.ofInt 16 allocated.1 }
  let fs := { fs with fat12Table := allocated.2 }
  match freeSlot fs.rootDir with
  | none => some (none, fs)
  | some i =>
      let fs := { fs with rootDir := Function.update fs.rootDir i newFile }
      (writeIntoMemory fs newFile data).map fun fs => (some i, fs)

def compFileName (ptr1 : Fin 8 → Byte) (ptr2 : CString) : Bool :=
  let len := strnlen ptr2 8
  decide (∀ i : Fin 8, (i : Nat) < len → ptr1 i = ptr2 i)

def findFile (root : RootDir) (name : CString) : Option (Fin 224) :=
  (List.finRange 224).find? fun i => compFileName (root i).name name

structure ReadCursor where
  dataSize : Nat
  nextCluser : Half
  writePtr : Nat
  buff : Nat → Byte

/-- `read` bytes from sector `cluser` stored `writePtr` bytes into `buff`. -/
def readCluster (disk : DiskImage) (cluser : Half) (buff : Nat → Byte)
    (writePtr read : Nat) : Nat → Byte := fun k =>
  if k < writePtr then buff k
  else
    (diskStreamerRead disk (cluser.toNat * sectorSize)
      (fun j => buff (writePtr + j)) read).1 (k - writePtr)

def readDataLoop (table : Table) (disk : DiskImage) :
    (turns : Nat) → ReadCursor → Option ReadCursor
  | 0, _ => none
  | turns + 1, cursor =>
      let link := table ((cursor.nextCluser.toNat : Int) - startingDataSector)
      if link = endOfFile then some cursor
      else
        let read :=
          if cursor.dataSize > sectorSize then sectorSize else cursor.dataSize
        readDataLoop table disk turns
          { dataSize := cursor.dataSize - read
            nextCluser := link + BitVec.ofNat 16 startingDataSector
            writePtr := cursor.writePtr + read
            buff :=
              readCluster disk cursor.nextCluser cursor.buff cursor.writePtr
                read }

def cText (buff : Nat → Byte) (length : Nat) : List Byte :=
  ((List.range length).map buff).takeWhile (· ≠ 0)

def readFileText (table : Table) (disk : DiskImage) (file : FileDir) :
    Option (List Byte) :=
  match readDataLoop table disk walkLimit
      ⟨file.size.toNat, file.firstCluster, 0, fun _ => 0⟩ with
  | none => none
  | some cursor =>
      let read := cursor.dataSize % 2 ^ 16
      let buff :=
        readCluster disk cursor.nextCluser cursor.buff cursor.writePtr read
      -- `data_size` has been counted down to what the last sector holds.
      let buff := Function.update buff cursor.dataSize 0
      some (cText buff (file.size.toNat + 1))

def loadRootDir (root : RootDir) (disk : DiskImage) : RootDir :=
  RootDir.ofBytes
    (diskStreamerRead disk (startRootDir * sectorSize) root.bytes
      sizeofRootDir).1

def readFile (fs : FileSystem) (name : CString) : Option FileSystem :=
  let fs := { fs with rootDir := loadRootDir fs.rootDir fs.disk }
  match findFile fs.rootDir name with
  | none => some { fs with screen := fs.screen ++ literal "NO FILE FOUND\n" }
  | some i =>
      (readFileText fs.fat12Table fs.disk (fs.rootDir i)).map fun text =>
        { fs with screen := fs.screen ++ text ++ literal "\n" }

def clearCluster (disk : DiskImage) (next : Int) : DiskImage :=
  (diskStreamerWrite disk (clusterPos next) (fun _ => 0) sectorSize).1

def deleteLoop : (turns : Nat) → (next : Int) → Table → DiskImage →
    Option (Int × Table × DiskImage)
  | 0, _, _, _ => none
  | turns + 1, next, table, disk =>
      if table next = endOfFile then some (next, table, disk)
      else
        deleteLoop turns (table next).toNat (Function.update table next freeEntry)
          (clearCluster disk next)

def deleteFile (fs : FileSystem) (name : CString) : Option FileSystem :=
  match findFile fs.rootDir name with
  | none => some { fs with screen := fs.screen ++ literal "NO FILE FOUND" }
  | some pos =>
      let firstClust := (fs.rootDir pos).firstCluster
      let next : Int := firstClust.toNat - startingDataSector
      match deleteLoop walkLimit next fs.fat12Table fs.disk with
      | none => none
      | some (next, table, disk) =>
          let disk := clearCluster disk next
          let table := Function.update table next freeEntry
          let root := Function.update fs.rootDir pos FileDir.zero
          some { fs with
            fat12Table := table
            rootDir := root
            disk := flushTable table (flushRootDir root disk) }

/-- `tmp` from its last digit back, which is how `buf` gets it. -/
def itoaLoop : (turns : Nat) → (num : Byte) → (tmp : List Byte) → List Byte
  | 0, _, tmp => tmp
  | turns + 1, num, tmp =>
      if num = 0 then tmp else itoaLoop turns (num / 10) ((0x30 + num % 10) :: tmp)

def itoa (num : Byte) : List Byte :=
  if num = 0 then literal "0" else itoaLoop 3 num []

def printTime (t : RtcTime) : List Byte :=
  itoa t.hours ++ literal ":" ++ itoa t.minutes ++ literal ":" ++
    itoa t.seconds ++ literal " " ++ itoa t.day ++ literal "/" ++
    itoa t.month ++ literal "/" ++ itoa t.year ++ literal "\n"

def listSlot (file : FileDir) : List Byte :=
  if file.name 0 = 0 then []
  else
    List.ofFn file.name ++ literal "." ++ List.ofFn file.ext ++ literal "  " ++
      printTime file.timeStamp ++ literal "\n"

def listFiles (fs : FileSystem) : FileSystem :=
  { fs with
    screen := fs.screen ++ (List.finRange 224).flatMap fun i =>
      listSlot (fs.rootDir i) }

end LazyOS.Fs
