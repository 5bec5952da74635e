import LazyOS.Drivers.Screen

namespace LazyOS.Drivers

open LazyOS.Data

/-! The cursor and what is visible.  The cursor may rest behind the last column of its
row; that position is also the first cell of the next row. -/

/-- The cursor is on the screen and nothing is visible at it or after it. -/
structure CursorOk (screen : Nat → Half) (row col : Nat) : Prop where
  row_lt : row < vgaHeight
  col_le : col ≤ vgaWidth
  unseen : ∀ position, row * vgaWidth + col ≤ position →
    position < vgaHeight * vgaWidth → attrByte (screen position) = 0

structure TerminalInv (t : Terminal) : Prop where
  shown : CursorOk t.videoMem t.terminalRow t.terminalCol
  saved : CursorOk t.savedScreen t.savedRow t.savedCol

structure Draws (t next : Terminal) : Prop where
  shown : CursorOk next.videoMem next.terminalRow next.terminalCol
  savedScreen : next.savedScreen = t.savedScreen
  savedRow : next.savedRow = t.savedRow
  savedCol : next.savedCol = t.savedCol

theorem Draws.refl {t : Terminal} (ok : CursorOk t.videoMem t.terminalRow t.terminalCol) :
    Draws t t := ⟨ok, rfl, rfl, rfl⟩

theorem Draws.trans {first middle last : Terminal} (earlier : Draws first middle)
    (later : Draws middle last) : Draws first last :=
  ⟨later.shown, later.savedScreen.trans earlier.savedScreen,
    later.savedRow.trans earlier.savedRow, later.savedCol.trans earlier.savedCol⟩

theorem Draws.inv {t next : Terminal} (draws : Draws t next) (inv : TerminalInv t) :
    TerminalInv next := by
  refine ⟨draws.shown, ?_⟩
  rw [draws.savedScreen, draws.savedRow, draws.savedCol]
  exact inv.saved

theorem attrByte_blank : attrByte blank = 0 := by decide

theorem cursorOk_blank (screen : Nat → Half) :
    CursorOk (drawn (fun _ => blank) screen (vgaHeight * vgaWidth)) 0 0 := by
  refine ⟨by decide, by decide, fun position _ inside => ?_⟩
  unfold drawn
  rw [if_pos inside]
  exact attrByte_blank

theorem nextRow_draws {t : Terminal}
    (ok : CursorOk t.videoMem t.terminalRow t.terminalCol) :
    ∃ next, nextRow t = some next ∧ Draws t next ∧ next.terminalCol = 0 := by
  have row := ok.row_lt
  have col := ok.col_le
  by_cases inside : t.terminalRow + 1 < vgaHeight
  · refine ⟨_, nextRow_inside inside, ⟨⟨inside, Nat.zero_le _, ?_⟩, rfl, rfl, rfl⟩, rfl⟩
    intro position after bound
    apply ok.unseen position _ bound
    simp only [Nat.succ_mul] at after
    omega
  · refine ⟨_, nextRow_last (by omega),
      ⟨⟨Nat.sub_lt (by decide) (by decide), Nat.zero_le _, ?_⟩, rfl, rfl, rfl⟩, rfl⟩
    intro position after bound
    simp only [Nat.add_zero] at after
    simp only [scrolled]
    rw [if_neg (Nat.not_lt.mpr after), if_pos bound]
    exact attrByte_blank

theorem putChar_draws {t : Terminal}
    (ok : CursorOk t.videoMem t.terminalRow t.terminalCol)
    (col : t.terminalCol < vgaWidth) (c : Byte) (fg bg : Color) :
    ∃ next, ((terminalPutChar t.terminalCol t.terminalRow fg bg c t).map fun t =>
      { t with terminalCol := (t.terminalCol + 1) % 2 ^ 16 }) = some next ∧
      Draws t next := by
  have narrow : (t.terminalCol + 1) % 2 ^ 16 = t.terminalCol + 1 :=
    Nat.mod_eq_of_lt (Nat.lt_of_le_of_lt col (by decide))
  rw [terminalPutChar_eq t fg bg c (grid_inside ok.row_lt col), Option.map_some]
  simp only [narrow]
  refine ⟨_, rfl, ⟨ok.row_lt, col, ?_⟩, rfl, rfl, rfl⟩
  intro position after bound
  simp only at after
  simp only
  rw [Function.update_of_ne (by omega)]
  exact ok.unseen position (by omega) bound

theorem terminalWriteChar_draws {t : Terminal}
    (ok : CursorOk t.videoMem t.terminalRow t.terminalCol) (c : Byte) (fg bg : Color) :
    ∃ next, terminalWriteChar c fg bg t = some next ∧ Draws t next := by
  unfold terminalWriteChar
  by_cases newline : c = newlineChar
  · rw [if_pos newline]
    obtain ⟨next, moved, draws, -⟩ := nextRow_draws ok
    exact ⟨next, moved, draws⟩
  · rw [if_neg newline]
    by_cases full : t.terminalCol ≥ vgaWidth
    · rw [if_pos full]
      obtain ⟨middle, moved, draws, start⟩ := nextRow_draws ok
      rw [moved, Option.bind_some]
      obtain ⟨next, written, later⟩ := putChar_draws draws.shown
        (start ▸ (by decide : 0 < vgaWidth)) c fg bg
      exact ⟨next, written, draws.trans later⟩
    · rw [if_neg full, Option.bind_some]
      exact putChar_draws ok (Nat.lt_of_not_le full) c fg bg

theorem printColor_draws {t : Terminal}
    (ok : CursorOk t.videoMem t.terminalRow t.terminalCol) (msg : List Byte)
    (fg bg : Color) : ∃ next, printColor msg fg bg t = some next ∧ Draws t next := by
  induction msg generalizing t with
  | nil => exact ⟨t, rfl, Draws.refl ok⟩
  | cons c rest ih =>
      obtain ⟨middle, written, draws⟩ := terminalWriteChar_draws ok c fg bg
      obtain ⟨next, printed, later⟩ := ih draws.shown
      refine ⟨next, ?_, draws.trans later⟩
      rw [printColor, written, Option.bind_some, printed]

theorem print_draws {t : Terminal}
    (ok : CursorOk t.videoMem t.terminalRow t.terminalCol) (msg : List Byte) :
    ∃ next, print msg t = some next ∧ Draws t next :=
  printColor_draws ok msg .white .black

theorem terminalClear_draws (t : Terminal) :
    ∃ next, terminalClear t = some next ∧ Draws t next :=
  ⟨_, terminalClear_eq t, cursorOk_blank t.videoMem, rfl, rfl, rfl⟩

theorem enterEditorMode_draws (t : Terminal) (filename : List Byte) :
    ∃ next, enterEditorMode filename t = some next ∧ Draws t next := by
  obtain ⟨cleared, clears, first⟩ := terminalClear_draws t
  obtain ⟨titled, titles, second⟩ :=
    printColor_draws first.shown (literal "Termianl mode :") .green .black
  obtain ⟨named, names, third⟩ := printColor_draws second.shown filename .cyan .black
  obtain ⟨next, printed, fourth⟩ := print_draws third.shown (literal "\n\n")
  refine ⟨next, ?_, ((first.trans second).trans third).trans fourth⟩
  unfold enterEditorMode
  rw [clears, Option.bind_some, titles, Option.bind_some, names, Option.bind_some,
    printed]

theorem backOne_eq (t : Terminal) :
    ∃ row col, backOne t = { t with terminalRow := row, terminalCol := col } := by
  unfold backOne
  split
  · split
    · exact ⟨_, _, rfl⟩
    · exact ⟨_, _, rfl⟩
  · exact ⟨_, _, rfl⟩

@[simp] theorem backOne_videoMem (t : Terminal) : (backOne t).videoMem = t.videoMem := by
  obtain ⟨row, col, moved⟩ := backOne_eq t
  rw [moved]

/-- Where the walk of `Backspace` is: behind the position nothing is visible, and the
position behind a row is one it has come back over. -/
structure WalkAt (screen : Nat → Half) (row col : Nat) : Prop where
  row_lt : row < vgaHeight
  col_le : col ≤ vgaWidth
  unseen : ∀ position, row * vgaWidth + col < position →
    position < vgaHeight * vgaWidth → attrByte (screen position) = 0
  seenBehind : col = vgaWidth → row + 1 < vgaHeight ∧
    attrByte (screen (row * vgaWidth + col)) = 0

theorem WalkAt.inside {screen : Nat → Half} {row col : Nat}
    (walk : WalkAt screen row col) : row * vgaWidth + col < vgaHeight * vgaWidth := by
  have rowLt := walk.row_lt
  have colLe := walk.col_le
  by_cases phantom : col = vgaWidth
  · have above := (walk.seenBehind phantom).1
    unfold vgaHeight vgaWidth at *
    omega
  · exact grid_inside rowLt (Nat.lt_of_le_of_ne colLe phantom)

theorem walkAt_backOne {t : Terminal} (row : t.terminalRow < vgaHeight)
    (col : t.terminalCol ≤ vgaWidth)
    (unseen : ∀ position, t.terminalRow * vgaWidth + t.terminalCol ≤ position →
      position < vgaHeight * vgaWidth → attrByte (t.videoMem position) = 0)
    (away : ¬ (t.terminalCol = 0 ∧ t.terminalRow = 0)) :
    WalkAt t.videoMem (backOne t).terminalRow (backOne t).terminalCol ∧
      stepsBack (backOne t) + 1 = stepsBack t := by
  unfold backOne stepsBack
  by_cases first : t.terminalCol = 0
  · have above : t.terminalRow ≠ 0 := fun zero => away ⟨first, zero⟩
    rw [if_pos first, if_neg above]
    have same : (t.terminalRow - 1) * vgaWidth + vgaWidth = t.terminalRow * vgaWidth := by
      rw [← Nat.succ_mul, Nat.succ_eq_add_one, Nat.sub_add_cancel (by omega)]
    refine ⟨⟨by simp only; omega, le_rfl, ?_, ?_⟩, ?_⟩
    · intro position after bound
      simp only at after
      exact unseen position (by omega) bound
    · intro _
      refine ⟨by simp only; omega, unseen _ (by simp only; omega) ?_⟩
      simp only
      rw [same]
      unfold vgaHeight vgaWidth at *
      omega
    · simp only [first]
      unfold vgaWidth
      omega
  · rw [if_neg first]
    refine ⟨⟨row, by simp only; omega, ?_, ?_⟩, ?_⟩
    · intro position after bound
      simp only at after
      exact unseen position (by omega) bound
    · intro phantom
      simp only at phantom
      omega
    · simp only
      omega

@[simp] theorem backOne_savedScreen (t : Terminal) :
    (backOne t).savedScreen = t.savedScreen := by
  obtain ⟨row, col, moved⟩ := backOne_eq t
  rw [moved]

@[simp] theorem backOne_savedRow (t : Terminal) : (backOne t).savedRow = t.savedRow := by
  obtain ⟨row, col, moved⟩ := backOne_eq t
  rw [moved]

@[simp] theorem backOne_savedCol (t : Terminal) : (backOne t).savedCol = t.savedCol := by
  obtain ⟨row, col, moved⟩ := backOne_eq t
  rw [moved]

structure WalkEnd (t last : Terminal) : Prop where
  row_lt : last.terminalRow < vgaHeight
  col_lt : last.terminalCol < vgaWidth
  unseen : ∀ position, last.terminalRow * vgaWidth + last.terminalCol < position →
    position < vgaHeight * vgaWidth → attrByte (last.videoMem position) = 0
  savedScreen : last.savedScreen = t.savedScreen
  savedRow : last.savedRow = t.savedRow
  savedCol : last.savedCol = t.savedCol

theorem WalkAt.ends {t : Terminal}
    (walk : WalkAt t.videoMem t.terminalRow t.terminalCol)
    (stops : t.terminalCol ≠ vgaWidth) : WalkEnd t t :=
  ⟨walk.row_lt, Nat.lt_of_le_of_ne walk.col_le stops, walk.unseen, rfl, rfl, rfl⟩

theorem backspaceLoop_spec (turns : Nat) {t : Terminal}
    (walk : WalkAt t.videoMem t.terminalRow t.terminalCol) (enough : stepsBack t < turns) :
    ∃ last, backspaceLoop turns t = some last ∧ WalkEnd t last := by
  induction turns generalizing t with
  | zero => exact absurd enough (Nat.not_lt_zero _)
  | succ turns ih =>
      unfold backspaceLoop
      by_cases home : t.terminalCol = 0 ∧ t.terminalRow = 0
      · rw [if_pos home]
        exact ⟨t, rfl, walk.ends (home.1 ▸ by decide)⟩
      · rw [if_neg home]
        have read : cellAttr t.terminalCol t.terminalRow t =
            some (attrByte (t.videoMem (t.terminalRow * vgaWidth + t.terminalCol))) := by
          unfold cellAttr
          rw [Terminal.readCell_eq t walk.inside, Option.map_some]
        rw [read, Option.bind_some]
        by_cases black :
            attrByte (t.videoMem (t.terminalRow * vgaWidth + t.terminalCol)) = 0
        · rw [if_pos black]
          obtain ⟨further, fewer⟩ := walkAt_backOne walk.row_lt walk.col_le
            (fun position after bound =>
              (Nat.eq_or_lt_of_le after).elim (fun here => here ▸ black)
                fun beyond => walk.unseen position beyond bound) home
          rw [← backOne_videoMem t] at further
          obtain ⟨last, walked, ended⟩ := ih further (by omega)
          refine ⟨last, walked, ended.row_lt, ended.col_lt, ended.unseen, ?_, ?_, ?_⟩
          · rw [ended.savedScreen, backOne_savedScreen]
          · rw [ended.savedRow, backOne_savedRow]
          · rw [ended.savedCol, backOne_savedCol]
        · rw [if_neg black]
          exact ⟨t, rfl, walk.ends fun phantom => black (walk.seenBehind phantom).2⟩

theorem backspace_draws {t : Terminal}
    (ok : CursorOk t.videoMem t.terminalRow t.terminalCol) :
    ∃ next, backspace t = some next ∧ Draws t next := by
  unfold backspace
  by_cases home : t.terminalCol = 0 ∧ t.terminalRow = 0
  · rw [if_pos home]
    exact ⟨t, rfl, Draws.refl ok⟩
  · rw [if_neg home]
    obtain ⟨walk, fewer⟩ := walkAt_backOne ok.row_lt ok.col_le ok.unseen home
    rw [← backOne_videoMem t] at walk
    obtain ⟨last, walked, ended⟩ := backspaceLoop_spec (stepsBack t + 1) walk (by omega)
    have inside := grid_inside ended.row_lt ended.col_lt
    rw [walked, Option.bind_some, terminalPutChar_eq last .black .black 0x20 inside]
    refine ⟨_, rfl, ⟨ended.row_lt, ended.col_lt.le, ?_⟩, ?_, ?_, ?_⟩
    · intro position after bound
      simp only at after
      simp only
      by_cases here : position = last.terminalRow * vgaWidth + last.terminalCol
      · rw [here, Function.update_self]
        exact attrByte_blank
      · rw [Function.update_of_ne here]
        exact ended.unseen position (by omega) bound
    · exact ended.savedScreen.trans (backOne_savedScreen t)
    · exact ended.savedRow.trans (backOne_savedRow t)
    · exact ended.savedCol.trans (backOne_savedCol t)

theorem CursorOk.of_sameScreen {left right : Nat → Half} {row col : Nat}
    (ok : CursorOk left row col) (same : SameScreen right left) :
    CursorOk right row col :=
  ⟨ok.row_lt, ok.col_le, fun position after bound => by
    rw [same position bound]
    exact ok.unseen position after bound⟩

theorem sameScreen_drawn (new old : Nat → Half) :
    SameScreen (drawn new old (vgaHeight * vgaWidth)) new :=
  fun _ inside => if_pos inside

theorem CursorOk.narrow {screen : Nat → Half} {row col : Nat}
    (ok : CursorOk screen row col) : row % 2 ^ 8 = row ∧ col % 2 ^ 8 = col :=
  ⟨Nat.mod_eq_of_lt (ok.row_lt.trans (by decide)),
    Nat.mod_eq_of_lt (Nat.lt_of_le_of_lt ok.col_le (by decide))⟩

structure Saves (t next : Terminal) : Prop where
  screen : SameScreen next.savedScreen t.videoMem
  row : next.savedRow = t.terminalRow
  col : next.savedCol = t.terminalCol

theorem Saves.draws {t middle next : Terminal} (saves : Saves t middle)
    (draws : Draws middle next) : Saves t next := by
  obtain ⟨screen, row, col⟩ := saves
  exact ⟨draws.savedScreen ▸ screen, draws.savedRow.trans row, draws.savedCol.trans col⟩

theorem enterEditor_spec {t : Terminal}
    (ok : CursorOk t.videoMem t.terminalRow t.terminalCol) (filename : List Byte) :
    ∃ next, (saveWindowContent t).bind (enterEditorMode filename) = some next ∧
      TerminalInv next ∧ Saves t next := by
  obtain ⟨row, col⟩ := ok.narrow
  rw [saveWindowContent_eq, Option.bind_some, row, col]
  obtain ⟨next, entered, draws⟩ := enterEditorMode_draws
    { t with
      savedScreen := drawn t.videoMem t.savedScreen (vgaHeight * vgaWidth)
      savedRow := t.terminalRow
      savedCol := t.terminalCol
      terminalRow := 0
      terminalCol := 0 } filename
  have saves : Saves t next :=
    Saves.draws ⟨sameScreen_drawn t.videoMem t.savedScreen, rfl, rfl⟩ draws
  refine ⟨next, entered, ⟨draws.shown, ?_⟩, saves⟩
  rw [saves.row, saves.col]
  exact ok.of_sameScreen saves.screen

theorem retriveSavedWindow_spec {t : Terminal} (inv : TerminalInv t) :
    ∃ next, retriveSavedWindow t = some next ∧ TerminalInv next ∧
      SameScreen next.videoMem t.savedScreen ∧ next.terminalRow = t.savedRow ∧
      next.terminalCol = t.savedCol :=
  ⟨_, retriveSavedWindow_eq t,
    ⟨inv.saved.of_sameScreen (sameScreen_drawn t.savedScreen t.videoMem), inv.saved⟩,
    sameScreen_drawn t.savedScreen t.videoMem, rfl, rfl⟩

inductive TermOp where
  | writeChar (c : Byte) (fg bg : Color)
  | print (msg : List Byte)
  | printColor (msg : List Byte) (fg bg : Color)
  | backspace
  | clear
  | enterEditor (filename : List Byte)
  | retrive

def TermOp.run : TermOp → Terminal → Option Terminal
  | .writeChar c fg bg, t => terminalWriteChar c fg bg t
  | .print msg, t => Drivers.print msg t
  | .printColor msg fg bg, t => Drivers.printColor msg fg bg t
  | .backspace, t => Drivers.backspace t
  | .clear, t => terminalClear t
  | .enterEditor filename, t => (saveWindowContent t).bind (enterEditorMode filename)
  | .retrive, t => retriveSavedWindow t

def runOps : List TermOp → Terminal → Option Terminal
  | [], t => some t
  | op :: rest, t => (op.run t).bind (runOps rest)

/-- The terminal before `terminal_initialize`: whatever the video memory holds, and
statics that are zero. -/
def bootTerminal (videoMem : Nat → Half) : Terminal :=
  ⟨videoMem, 0, 0, fun _ => 0, 0, 0⟩

/-- The terminals that operations lead to after `terminal_initialize`. -/
def OnScreen (t : Terminal) : Prop :=
  ∃ videoMem ops, (terminalInitialize (bootTerminal videoMem)).bind (runOps ops) = some t

theorem runOps_append (first second : List TermOp) (t : Terminal) :
    runOps (first ++ second) t = (runOps first t).bind (runOps second) := by
  induction first generalizing t with
  | nil => rfl
  | cons op rest ih =>
      simp only [List.cons_append, runOps, Option.bind_assoc]
      exact Option.bind_congr fun next _ => ih next

theorem OnScreen.run {t next : Terminal} (reached : OnScreen t) (op : TermOp)
    (ran : op.run t = some next) : OnScreen next := by
  obtain ⟨videoMem, ops, before⟩ := reached
  refine ⟨videoMem, ops ++ [op], ?_⟩
  rw [Option.bind_eq_some_iff] at before ⊢
  obtain ⟨first, initialized, finished⟩ := before
  refine ⟨first, initialized, ?_⟩
  rw [runOps_append, finished, Option.bind_some, runOps, ran, Option.bind_some, runOps]

theorem TermOp.run_inv {t : Terminal} (inv : TerminalInv t) (op : TermOp) :
    ∃ next, op.run t = some next ∧ TerminalInv next := by
  have drawing {result : Option Terminal}
      (draws : ∃ next, result = some next ∧ Draws t next) :
      ∃ next, result = some next ∧ TerminalInv next := by
    obtain ⟨next, ran, drew⟩ := draws
    exact ⟨next, ran, drew.inv inv⟩
  cases op with
  | writeChar c fg bg => exact drawing (terminalWriteChar_draws inv.shown c fg bg)
  | print msg => exact drawing (print_draws inv.shown msg)
  | printColor msg fg bg => exact drawing (printColor_draws inv.shown msg fg bg)
  | backspace => exact drawing (backspace_draws inv.shown)
  | clear => exact drawing (terminalClear_draws t)
  | enterEditor filename =>
      obtain ⟨next, entered, kept, -⟩ := enterEditor_spec inv.shown filename
      exact ⟨next, entered, kept⟩
  | retrive =>
      obtain ⟨next, back, kept, -⟩ := retriveSavedWindow_spec inv
      exact ⟨next, back, kept⟩

theorem runOps_inv {t : Terminal} (inv : TerminalInv t) (ops : List TermOp) :
    ∃ last, runOps ops t = some last ∧ TerminalInv last := by
  induction ops generalizing t with
  | nil => exact ⟨t, rfl, inv⟩
  | cons op rest ih =>
      obtain ⟨next, ran, kept⟩ := op.run_inv inv
      obtain ⟨last, finished, ended⟩ := ih kept
      refine ⟨last, ?_, ended⟩
      rw [runOps, ran, Option.bind_some, finished]

theorem terminalInitialize_inv (videoMem : Nat → Half) :
    ∃ t, terminalInitialize (bootTerminal videoMem) = some t ∧ TerminalInv t := by
  refine ⟨_, terminalInitialize_eq (bootTerminal videoMem),
    cursorOk_blank videoMem, ?_, Nat.zero_le _, fun position _ _ => ?_⟩
  · show 0 < vgaHeight
    decide
  · show attrByte 0 = 0
    decide

theorem OnScreen.inv {t : Terminal} (reached : OnScreen t) : TerminalInv t := by
  obtain ⟨videoMem, ops, ran⟩ := reached
  obtain ⟨first, initialized, inv⟩ := terminalInitialize_inv videoMem
  obtain ⟨last, finished, kept⟩ := runOps_inv inv ops
  rw [initialized, Option.bind_some, finished] at ran
  exact Option.some.inj ran ▸ kept

/-- Every run of terminal operations ends without having left the screen, with the
cursor on it and nothing visible from the cursor on. -/
theorem cursor_stays_behind_text (videoMem : Nat → Half) (ops : List TermOp) :
    ∃ t, (terminalInitialize (bootTerminal videoMem)).bind (runOps ops) = some t ∧
      t.terminalRow < vgaHeight ∧ t.terminalCol ≤ vgaWidth ∧
      ∀ position, t.terminalRow * vgaWidth + t.terminalCol ≤ position →
        position < vgaHeight * vgaWidth → attrByte (t.videoMem position) = 0 := by
  obtain ⟨first, initialized, inv⟩ := terminalInitialize_inv videoMem
  obtain ⟨last, ran, kept⟩ := runOps_inv inv ops
  refine ⟨last, ?_, kept.shown.row_lt, kept.shown.col_le, kept.shown.unseen⟩
  rw [initialized, Option.bind_some, ran]

end LazyOS.Drivers
