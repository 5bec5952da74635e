import Mathlib.Data.List.GetD
import LazyOS.Drivers.Commands
import LazyOS.Fs.Lookup
import LazyOS.Fs.StoreSessions

namespace LazyOS.Drivers

open LazyOS.Data
open LazyOS.Fs

/-! The language of the command line and what its commands mean for the files, with no
buffers and no sectors. -/

inductive Command where
  | nothing
  | test
  | clear
  | getTime
  | read (name : List Byte)
  | write (name : List Byte)
  | delete (name : List Byte)
  | list
  | usage (command : String)
  | unknown

def parseWords (word : List Byte) (argument : Option (List Byte)) : Command :=
  if word = [] then .nothing
  else if word = literal "test" then .test
  else if word = literal "clear" then .clear
  else if word = literal "get-time" then .getTime
  else if word = literal "read" then argument.elim (.usage "read") .read
  else if word = literal "write" then argument.elim (.usage "write") .write
  else if word = literal "delete" then argument.elim (.usage "delete") .delete
  else if word = literal "ls" then .list
  else .unknown

/-- The command is the text before the first space, its argument the text after it. -/
def parseLine (line : List Byte) : Command :=
  parseWords (splitLine line).1 (splitLine line).2

def textString (text : List Byte) : CString := fun k => text.getD k 0

namespace Command

def step (timeStamp : RtcTime) (store : Store) : Command → Store × List Byte
  | nothing | clear | write _ => (store, [])
  | test => (store, literal "testing the buffer\n")
  | getTime => (store, printTime timeStamp)
  | read name => store.step (.read (textString name))
  | delete name => store.step (.delete (textString name))
  | list => store.step .list
  | usage command =>
      (store, literal "usage: " ++ literal command ++ literal " <filename>\n")
  | unknown => (store, literal "Command not recognized\n")

def display (answer : List Byte) (t : Terminal) : Command → Option Terminal
  | clear => terminalClear t
  | _ => print answer t

end Command

/-- The files in memory and on the disk are those of the store, and the directory in
memory is that of the disk. -/
structure Mounted (limit : Nat) (fs : FileSystem) (store : Store) : Prop where
  represents : Represents limit fs store
  coherent : fs.rootDir = rootOnDisk fs.disk

/-- A command has left `next` with the files `stored` and `answer` on the screen; the
mode and the editor are as they were. -/
structure Answered (limit : Nat) (command : Command) (c next : Console) (stored : Store)
    (answer : List Byte) : Prop where
  mode : next.mode = c.mode
  editor : next.editorBuff = c.editorBuff
  mounted : Mounted limit next.fs stored
  shown : command.display answer c.terminal = some next.terminal

theorem takeWhile_stringAt (ch : CString) (count : Nat) {start : Nat} {text : List Byte}
    (held : StringAt ch start text) :
    ((List.range count).map fun k => ch (start + k)).takeWhile (· ≠ 0) =
      text.take count := by
  induction count generalizing start text with
  | zero => rfl
  | succ count ih =>
      have later : (List.range count).map ((fun k => ch (start + k)) ∘ Nat.succ) =
          (List.range count).map fun k => ch (start + 1 + k) :=
        List.map_congr_left fun k _ => congrArg ch (Nat.succ_add_eq_add_succ start k).symm
      rw [List.range_succ_eq_map, List.map_cons, List.map_map, later, Nat.add_zero]
      cases text with
      | nil =>
          have ended : ch start = 0 := held.ends
          rw [List.takeWhile_cons_of_neg (by simpa using ended), List.take_nil]
      | cons c rest =>
          have goes : c ≠ 0 := held.nonzero c List.mem_cons_self
          rw [held.head, List.takeWhile_cons_of_pos (by simpa using goes), ih held.tail,
            List.take_succ_cons]

theorem shortName_of_stringAt {ch : CString} {start : Nat} {text : List Byte}
    (held : StringAt ch start text) : shortName (fun k => ch (start + k)) = text.take 8 :=
  takeWhile_stringAt ch 8 held

theorem stringAt_textString {text : List Byte} (nonzero : ∀ c ∈ text, c ≠ 0) :
    StringAt (textString text) 0 text := by
  refine ⟨fun k inside => ?_, nonzero, ?_⟩
  · unfold textString
    rw [Nat.zero_add, List.getD_eq_getElem _ _ inside]
  · unfold textString
    rw [Nat.zero_add, List.getD_eq_default _ _ le_rfl]

theorem shortName_argument {ch : CString} {start : Nat} {text : List Byte}
    (held : StringAt ch start text) :
    shortName (fun k => ch (start + k)) = shortName (textString text) := by
  have alone := shortName_of_stringAt (stringAt_textString held.nonzero)
  simp only [Nat.zero_add] at alone
  rw [shortName_of_stringAt held]
  exact alone.symm

section SameName

variable (store : Store) {name other : CString} (same : shortName name = shortName other)

include same

omit store in
theorem fieldText_congr : (fieldText name : Fin 8 → Byte) = fieldText other := by
  obtain ⟨accepted, padded⟩ := (eq_fieldText_iff (fieldText name) name).mp rfl
  rw [compFileName_iff_begins, same, ← compFileName_iff_begins] at accepted
  refine (eq_fieldText_iff _ _).mpr ⟨accepted, fun k past => padded k ?_⟩
  rw [strnlen_eq_shortName, same, ← strnlen_eq_shortName]
  exact past

end SameName

section Answers

variable {limit : Nat} {store : Store} {c : Console} {command : Command}

variable (ok : CursorOk c.terminal.videoMem c.terminal.terminalRow c.terminal.terminalCol)
variable (mounted : Mounted limit c.fs store)

include ok mounted

end Answers

end LazyOS.Drivers
