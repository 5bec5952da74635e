import LazyOS.Drivers.CommandLine
import LazyOS.Drivers.Prompt

namespace LazyOS.Drivers

open LazyOS.Data
open LazyOS.Fs

/-! `read_date` ends with `sti`, so that `ESC` is handled with interrupts enabled from
there on: keys can be handled before `create_file` goes on.  It has its arguments by
then, of which the length of the text is a value and the text an address. -/

def savedArgs (name text : List Byte) (esc : KeyPress) : CreateArgs where
  newFile := esc.newFile
  timeStamp := esc.timeStamp
  nameT := textString name
  extT := literalString "txt"
  data := fun k => textString text k.toNat
  size := BitVec.ofNat 32 text.length
  attributeT := 0x20

def escArgs (key : KeyPress) (size : Byte) (c : Console) : CreateArgs :=
  { cFileArgs key c with size := size.setWidth 32 }

def escRest (key : KeyPress) (size : Byte) (c : Console) : Option Console :=
  (c.fs.create (escArgs key size c)).bind fun created =>
  (retriveSavedWindow c.terminal).map fun t =>
    { clearEditorBuffer c with mode := .terminal, terminal := t, fs := created.2 }

/-- Keys that come one after another, each of them before an `ESC` that came earlier
goes on. -/
def interrupted : List KeyPress → Console → Option Console
  | [], c => some c
  | key :: rest, c =>
      if c.mode = .editor ∧ key.scanCode = escKey then
        (interrupted rest c).bind (escRest key c.editorBuff.position)
      else (keyboardCallback key c).bind (interrupted rest)

structure Saving (limit : Nat) (store : Store) (shown : Terminal) (name : List Byte)
    (c : Console) : Prop where
  inv : TerminalInv c.terminal
  saves : Saves shown c.terminal
  named : StringAt c.editorFilename 0 name
  mounted : Mounted limit c.fs store

section Files

variable {limit : Nat} {store : Store} {c : Console} {shown : Terminal}
variable {name text : List Byte}

theorem savedArgs_size {esc : KeyPress} (small : text.length ≤ 255) :
    (savedArgs name text esc).size.toNat = text.length := by
  show (BitVec.ofNat 32 text.length).toNat = text.length
  rw [BitVec.toNat_ofNat, Nat.mod_eq_of_lt (by omega)]

theorem savedArgs_data {esc : KeyPress} :
    dataBytes (savedArgs name text esc).data text.length = text := by
  apply List.ext_getElem
  · rw [dataBytes_length]
  · intro k left right
    unfold dataBytes savedArgs
    simp only [List.getElem_map, List.getElem_range, Int.toNat_natCast]
    exact List.getD_eq_getElem _ _ right

theorem escArgs_data (bytes : ∀ k (inside : k < text.length),
      c.editorBuff.bytes k = text[k]) (esc : KeyPress) (size : Byte) :
    dataBytes (escArgs esc size c).data text.length = text := by
  apply List.ext_getElem
  · rw [dataBytes_length]
  · intro k left right
    unfold dataBytes escArgs cFileArgs
    simp only [List.getElem_map, List.getElem_range, Int.toNat_natCast]
    exact bytes k right

theorem escArgs_stored (named : StringAt c.editorFilename 0 name) {size : Byte}
    (length : size.toNat = text.length) (bytes : ∀ k (inside : k < text.length),
      c.editorBuff.bytes k = text[k]) (esc : KeyPress) :
    (escArgs esc size c).stored = (savedArgs name text esc).stored := by
  have small : text.length ≤ 255 := by
    have bound := size.isLt
    omega
  have wide : (escArgs esc size c).size.toNat = text.length := by
    rw [← length]
    show (size.setWidth 32).toNat = size.toNat
    rw [BitVec.toNat_setWidth_of_le (by decide)]
  have sameName : shortName c.editorFilename = shortName (textString name) := by
    have same := shortName_argument named
    simp only [Nat.zero_add] at same
    exact same
  simp only [CreateArgs.stored, wide, escArgs_data bytes, savedArgs_size small,
    savedArgs_data, StoredFile.mk.injEq, and_true]
  exact ⟨fieldText_congr sameName, rfl, rfl, rfl⟩

theorem step_create_congr (store : Store) {args other : CreateArgs}
    (same : args.stored = other.stored) :
    store.step (.create args) = store.step (.create other) := by
  simp only [Store.step, same]

theorem Saving.escRest (saving : Saving limit store shown name c)
    (bound : limit ≤ totalFat12Entreis) {size : Byte} (length : size.toNat = text.length)
    (bytes : ∀ k (inside : k < text.length), c.editorBuff.bytes k = text[k])
    {esc : KeyPress} (allowed : store.Allows limit (.create (savedArgs name text esc))) :
    ∃ back, escRest esc size c = some back ∧ Restored shown back ∧ back.buff = c.buff ∧
      Saving limit (store.step (.create (savedArgs name text esc))).1 shown name back := by
  have same := escArgs_stored saving.named length bytes esc
  have contents := congrArg (fun file => file.contents.length) same
  have room : store.Allows limit (.create (escArgs esc size c)) := by
    refine ⟨allowed.1, ?_⟩
    have sizes : (escArgs esc size c).size.toNat = (savedArgs name text esc).size.toNat := by
      simp only [CreateArgs.stored, dataBytes_length] at contents
      exact contents
    rw [sizes]
    exact allowed.2
  obtain ⟨after, called, represents, coherent, -⟩ :=
    call_simulates bound saving.mounted.represents saving.mounted.coherent room
  obtain ⟨⟨filled, final⟩, created, rfl⟩ := Option.map_eq_some_iff.mp called
  obtain ⟨t, retrived, inv, cells, row, col⟩ := retriveSavedWindow_spec saving.inv
  rw [step_create_congr store same] at represents
  refine ⟨{ clearEditorBuffer c with mode := .terminal, terminal := t, fs := final }, ?_,
    ?_, rfl, inv, ?_, saving.named, represents, coherent⟩
  · unfold Drivers.escRest
    rw [created, Option.bind_some, retrived, Option.map_some]
  · exact {
      cells := fun position inside =>
        (cells position inside).trans (saving.saves.screen position inside)
      row := row.trans saving.saves.row
      col := col.trans saving.saves.col
      mode := rfl
      emptied := fun _ inside => if_pos inside
      start := rfl }
  · rw [retriveSavedWindow_eq] at retrived
    obtain rfl := Option.some.inj retrived
    exact ⟨saving.saves.screen, saving.saves.row, saving.saves.col⟩

theorem Restored.editor {back : Console} (restored : Restored shown back) :
    HoldsTyped back.editorBuff [] := by
  refine ⟨?_, fun k inside => absurd inside (Nat.not_lt_zero k), fun k _ inside =>
    restored.emptied k inside⟩
  rw [restored.start]
  rfl

end Files

def Escapes (keys : List KeyPress) : Prop := ∃ key ∈ keys, key.scanCode = escKey

instance (keys : List KeyPress) : Decidable (Escapes keys) :=
  inferInstanceAs (Decidable (∃ key ∈ keys, key.scanCode = escKey))

def textCodes (keys : List KeyPress) : List Byte :=
  (keys.filter (·.scanCode ≠ escKey)).map KeyPress.scanCode

def overtyped (text later : List Byte) : List Byte :=
  (later ++ List.replicate text.length 0).take text.length

/-- What is left of `text` for a press that goes on after the keys `rest`: once another
has saved, the buffer is empty. -/
def leftFor (text : List Byte) (rest : List KeyPress) : List Byte :=
  if Escapes rest then List.replicate text.length 0
  else overtyped text (typedAll text (textCodes rest))

def interruptedSaves : List Byte → List KeyPress → List (KeyPress × List Byte)
  | _, [] => []
  | text, key :: rest =>
      if key.scanCode = escKey then
        interruptedSaves text rest ++ [(key, leftFor text rest)]
      else interruptedSaves (typed text key.scanCode) rest

def savedOps (name : List Byte) (saves : List (KeyPress × List Byte)) : List FsOp :=
  saves.map fun saved => .create (savedArgs name saved.2 saved.1)

theorem escapes_cons_esc {key : KeyPress} (pressed : key.scanCode = escKey)
    (rest : List KeyPress) : Escapes (key :: rest) := ⟨key, List.mem_cons_self, pressed⟩

theorem escapes_cons_other {key : KeyPress} (other : key.scanCode ≠ escKey)
    (rest : List KeyPress) : Escapes (key :: rest) ↔ Escapes rest := by
  unfold Escapes
  simp [other]

theorem textCodes_cons_esc {key : KeyPress} (pressed : key.scanCode = escKey)
    (rest : List KeyPress) : textCodes (key :: rest) = textCodes rest := by
  unfold textCodes
  rw [List.filter_cons_of_neg (by simpa using pressed)]

theorem textCodes_cons_other {key : KeyPress} (other : key.scanCode ≠ escKey)
    (rest : List KeyPress) :
    textCodes (key :: rest) = key.scanCode :: textCodes rest := by
  unfold textCodes
  rw [List.filter_cons_of_pos (by simpa using other), List.map_cons]

theorem overtyped_length (text later : List Byte) :
    (overtyped text later).length = text.length := by
  unfold overtyped
  rw [List.length_take, List.length_append, List.length_replicate]
  omega

theorem HoldsTyped.overtyped {buffer : TextBuffer} {later : List Byte}
    (held : HoldsTyped buffer later) {text : List Byte} (small : text.length ≤ 255) :
    ∀ k (inside : k < (overtyped text later).length),
      buffer.bytes k = (overtyped text later)[k] := by
  intro k inside
  have bound := inside
  rw [overtyped_length] at bound
  simp only [Drivers.overtyped, List.getElem_take]
  by_cases typedHere : k < later.length
  · rw [List.getElem_append_left typedHere]
    exact held.bytes k typedHere
  · rw [List.getElem_append_right (Nat.le_of_not_lt typedHere), List.getElem_replicate]
    exact held.zero k (Nat.le_of_not_lt typedHere) (by unfold bufferSize; omega)

section Interrupted

variable {limit : Nat} {store : Store} {shown : Terminal} {name : List Byte}

theorem leftFor_length (text : List Byte) (rest : List KeyPress) :
    (leftFor text rest).length = text.length := by
  unfold leftFor
  split
  · exact List.length_replicate
  · exact overtyped_length _ _

theorem leftFor_bytes {middle : Console} {rest : List KeyPress} {text : List Byte}
    (small : text.length ≤ 255) (emptied : Escapes rest → Restored shown middle)
    (typing : ¬ Escapes rest →
      HoldsTyped middle.editorBuff (typedAll text (textCodes rest))) :
    ∀ k (inside : k < (leftFor text rest).length),
      middle.editorBuff.bytes k = (leftFor text rest)[k] := by
  by_cases saved : Escapes rest
  · simp only [leftFor, if_pos saved, List.length_replicate, List.getElem_replicate]
    intro k inside
    exact (emptied saved).emptied k (by unfold bufferSize; omega)
  · simp only [leftFor, if_neg saved]
    exact (typing saved).overtyped small

theorem Saving.types {c : Console} {text : List Byte}
    (saving : Saving limit store shown name c) (mode : c.mode = .editor)
    (held : HoldsTyped c.editorBuff text) {key : KeyPress} (other : key.scanCode ≠ escKey)
    (before : text.length ≤ 255) (after : (typed text key.scanCode).length ≤ 255) :
    ∃ next, keyboardCallback key c = some next ∧ next.mode = .editor ∧
      Saving limit store shown name next ∧
      HoldsTyped next.editorBuff (typed text key.scanCode) := by
  have stays : key.scanCode ≠ closingKey c.mode := by
    rw [mode]
    exact other
  obtain ⟨t, pressed, draws⟩ := keyboardCallback_types saving.inv.shown stays
  unfold Console.retyped Console.active at pressed
  simp only [mode] at pressed
  refine ⟨_, pressed, rfl, ⟨draws.inv saving.inv, saving.saves.draws draws, saving.named,
    saving.mounted⟩, ?_⟩
  rcases held.press before key.scanCode with ⟨-, kept⟩ | ⟨long, -⟩
  · exact kept
  · omega

/-- However many presses of `ESC` are under way, in the end each of them has saved what
was left for it. -/
theorem Saving.interrupted (bound : limit ≤ totalFat12Entreis) {keys : List KeyPress}
    {c : Console} {text : List Byte} (saving : Saving limit store shown name c)
    (mode : c.mode = .editor) (held : HoldsTyped c.editorBuff text)
    (never : NeverMore 255 text (textCodes keys))
    (admits : Admits Store.step (Store.Allows limit) store
      (savedOps name (interruptedSaves text keys))) :
    ∃ back, interrupted keys c = some back ∧
      Saving limit (answers Store.step store
        (savedOps name (interruptedSaves text keys))).1 shown name back ∧
      (Escapes keys → Restored shown back) ∧
      (¬ Escapes keys → HoldsTyped back.editorBuff (typedAll text (textCodes keys))) := by
  induction keys generalizing c text with
  | nil =>
      refine ⟨c, rfl, saving, ?_, fun _ => held⟩
      rintro ⟨_, none, -⟩
      exact absurd none List.not_mem_nil
  | cons key rest ih =>
      have small := never.first
      unfold interruptedSaves at admits ⊢
      unfold Drivers.interrupted
      by_cases pressed : key.scanCode = escKey
      · rw [textCodes_cons_esc pressed] at never
        simp only [if_pos pressed, savedOps, List.map_append, List.map_cons, List.map_nil]
          at admits ⊢
        obtain ⟨earlier, last⟩ := admits.split
        obtain ⟨middle, ran, kept, emptied, typing⟩ := ih saving mode held never earlier
        rw [if_pos ⟨mode, pressed⟩, ran, Option.bind_some, answers_append]
        obtain ⟨back, finished, restored, -, saved⟩ :=
          kept.escRest bound (held.position.trans (leftFor_length text rest).symm)
            (leftFor_bytes small emptied typing) last.1
        exact ⟨back, finished, saved, fun _ => restored,
          fun none => absurd (escapes_cons_esc pressed rest) none⟩
      · rw [textCodes_cons_other pressed] at never
        simp only [if_neg pressed] at admits ⊢
        obtain ⟨next, ran, stays, kept, typing⟩ :=
          saving.types mode held pressed small never.rest.first
        obtain ⟨back, finished, saved, restored, left⟩ :=
          ih kept stays typing never.rest admits
        rw [if_neg fun both => pressed both.2, ran, Option.bind_some,
          escapes_cons_other pressed, textCodes_cons_other pressed]
        exact ⟨back, finished, saved, restored, left⟩

end Interrupted

end LazyOS.Drivers
