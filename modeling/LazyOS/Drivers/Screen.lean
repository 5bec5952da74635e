import LazyOS.Drivers.Vga

namespace LazyOS.Drivers

open LazyOS.Data

/-! What each screen operation leaves, cell by cell. -/

def SameScreen (left right : Nat → Half) : Prop :=
  ∀ position < vgaHeight * vgaWidth, left position = right position

theorem Terminal.readCell_eq (t : Terminal) {location : Nat}
    (inside : location < vgaHeight * vgaWidth) :
    t.readCell location = some (t.videoMem location) := if_pos inside

theorem Terminal.writeCell_eq (t : Terminal) {location : Nat} (value : Half)
    (inside : location < vgaHeight * vgaWidth) :
    t.writeCell location value =
      some { t with videoMem := Function.update t.videoMem location value } :=
  if_pos inside

theorem terminalPutChar_eq (t : Terminal) {x y : Nat} (fg bg : Color) (ch : Byte)
    (inside : y * vgaWidth + x < vgaHeight * vgaWidth) :
    terminalPutChar x y fg bg ch t =
      some { t with
        videoMem := Function.update t.videoMem (y * vgaWidth + x)
          (terminalMakeChar ch fg bg) } := by
  have narrow : (y * vgaWidth + x) % 2 ^ 16 = y * vgaWidth + x :=
    Nat.mod_eq_of_lt (inside.trans (by decide))
  unfold terminalPutChar
  simp only [narrow]
  exact t.writeCell_eq _ inside

theorem grid_inside {y x height : Nat} (row : y < height) (column : x < vgaWidth) :
    y * vgaWidth + x < height * vgaWidth := by
  have rows := Nat.mul_le_mul_right vgaWidth (Nat.succ_le_of_lt row)
  rw [Nat.succ_mul] at rows
  omega

def drawn {Value : Type} (new old : Nat → Value) (count : Nat) : Nat → Value :=
  fun i => if i < count then new i else old i

theorem drawn_zero {Value : Type} (new old : Nat → Value) : drawn new old 0 = old := by
  funext i
  exact if_neg (Nat.not_lt_zero i)

theorem drawn_of_le {Value : Type} (new old : Nat → Value) {count i : Nat}
    (rest : count ≤ i) : drawn new old count i = old i :=
  if_neg (Nat.not_lt.mpr rest)

theorem update_drawn {Value : Type} (new old : Nat → Value) (count : Nat) :
    Function.update (drawn new old count) count (new count) =
      drawn new old (count + 1) := by
  funext i
  unfold drawn
  by_cases here : i = count
  · subst here
    rw [Function.update_self, if_pos (by omega)]
  · rw [Function.update_of_ne here]
    by_cases before : i < count
    · rw [if_pos before, if_pos (by omega)]
    · rw [if_neg before, if_neg (by omega)]

theorem forGrid_drawn {height : Nat} {body : Nat → Nat → Terminal → Option Terminal}
    (t : Terminal) (new : Nat → Half)
    (step : ∀ y x, y < height → x < vgaWidth →
      body y x { t with videoMem := drawn new t.videoMem (y * vgaWidth + x) } =
        some { t with videoMem := drawn new t.videoMem (y * vgaWidth + x + 1) }) :
    forGrid height vgaWidth body t =
      some { t with videoMem := drawn new t.videoMem (height * vgaWidth) } := by
  have looped := forGrid_eq
    (fun k => { t with videoMem := drawn new t.videoMem k }) step
  simp only [drawn_zero] at looped
  exact looped

theorem blankScreen_eq (t : Terminal) :
    blankScreen t = some { t with
      videoMem := drawn (fun _ => blank) t.videoMem (vgaHeight * vgaWidth) } := by
  apply forGrid_drawn
  intro y x row column
  rw [terminalPutChar_eq _ _ _ _ (grid_inside row column)]
  exact congrArg (fun cells => some { t with videoMem := cells })
    (update_drawn (fun _ => blank) t.videoMem (y * vgaWidth + x))

theorem terminalInitialize_eq (t : Terminal) :
    terminalInitialize t = some { t with
      videoMem := drawn (fun _ => blank) t.videoMem (vgaHeight * vgaWidth)
      terminalRow := 0
      terminalCol := 0 } :=
  blankScreen_eq _

theorem terminalClear_eq (t : Terminal) :
    terminalClear t = some { t with
      videoMem := drawn (fun _ => blank) t.videoMem (vgaHeight * vgaWidth)
      terminalRow := 0
      terminalCol := 0 } := by
  unfold terminalClear
  rw [blankScreen_eq]
  rfl

def scrolled (screen : Nat → Half) : Nat → Half := fun i =>
  if i < (vgaHeight - 1) * vgaWidth then screen (i + vgaWidth)
  else if i < vgaHeight * vgaWidth then blank
  else screen i

theorem drawn_scrolled (screen : Nat → Half) :
    drawn (scrolled screen) screen (vgaHeight * vgaWidth) = scrolled screen := by
  funext i
  unfold drawn scrolled
  by_cases inside : i < vgaHeight * vgaWidth
  · rw [if_pos inside]
  · have above : ¬ i < (vgaHeight - 1) * vgaWidth := by
      unfold vgaHeight vgaWidth at *
      omega
    rw [if_neg inside, if_neg above, if_neg inside]

/-- The rows that move up.  The row below has not been overwritten yet when its cells
are read. -/
theorem scrollRows_eq (t : Terminal) :
    forGrid (vgaHeight - 1) vgaWidth (fun y x t =>
      (t.readCell ((y + 1) * vgaWidth + x)).bind fun cell =>
        t.writeCell (y * vgaWidth + x) cell) t =
    some { t with
      videoMem := drawn (scrolled t.videoMem) t.videoMem ((vgaHeight - 1) * vgaWidth) } := by
  apply forGrid_drawn
  intro y x row column
  have inside := grid_inside row column
  have source : (y + 1) * vgaWidth + x = y * vgaWidth + x + vgaWidth := by
    rw [Nat.succ_mul]
    omega
  have target : scrolled t.videoMem (y * vgaWidth + x) =
      t.videoMem (y * vgaWidth + x + vgaWidth) := if_pos inside
  rw [source, Terminal.readCell_eq, Option.bind_some, Terminal.writeCell_eq]
  · simp only
    rw [drawn_of_le _ _ (by omega), ← target, update_drawn]
  · exact inside.trans (by decide)
  · unfold vgaHeight vgaWidth at *
    omega

theorem scrollLastRow_eq (t : Terminal) (screen : Nat → Half) :
    forRange vgaWidth (fun x t => t.writeCell ((vgaHeight - 1) * vgaWidth + x) blank)
      { t with videoMem := drawn (scrolled screen) screen ((vgaHeight - 1) * vgaWidth) } =
    some { t with videoMem := scrolled screen } := by
  let states (x : Nat) : Terminal := { t with
    videoMem := drawn (scrolled screen) screen ((vgaHeight - 1) * vgaWidth + x) }
  have step : ∀ x < vgaWidth,
      (states x).writeCell ((vgaHeight - 1) * vgaWidth + x) blank =
        some (states (x + 1)) := by
    intro x column
    have inside : (vgaHeight - 1) * vgaWidth + x < vgaHeight * vgaWidth := by
      unfold vgaHeight vgaWidth at *
      omega
    have target : scrolled screen ((vgaHeight - 1) * vgaWidth + x) = blank := by
      unfold scrolled
      rw [if_neg (by omega), if_pos inside]
    rw [Terminal.writeCell_eq _ _ inside, ← target]
    simp only [states, update_drawn, Nat.add_assoc]
  have ends : states vgaWidth = { t with videoMem := scrolled screen } := by
    simp only [states]
    rw [show (vgaHeight - 1) * vgaWidth + vgaWidth = vgaHeight * vgaWidth from rfl,
      drawn_scrolled]
  rw [← ends]
  exact forRange_eq states step

theorem terminalScroll_eq (t : Terminal) :
    terminalScroll t = some { t with videoMem := scrolled t.videoMem } := by
  unfold terminalScroll
  rw [scrollRows_eq, Option.bind_some]
  exact scrollLastRow_eq t t.videoMem

theorem nextRow_inside {t : Terminal} (inside : t.terminalRow + 1 < vgaHeight) :
    nextRow t = some { t with terminalRow := t.terminalRow + 1, terminalCol := 0 } := by
  have narrow : (t.terminalRow + 1) % 2 ^ 16 = t.terminalRow + 1 :=
    Nat.mod_eq_of_lt (inside.trans (by decide))
  unfold nextRow
  simp only [narrow]
  rw [if_neg (by omega)]

theorem nextRow_last {t : Terminal} (last : t.terminalRow + 1 = vgaHeight) :
    nextRow t = some { t with
      videoMem := scrolled t.videoMem
      terminalRow := vgaHeight - 1
      terminalCol := 0 } := by
  have narrow : (t.terminalRow + 1) % 2 ^ 16 = vgaHeight := by rw [last]; rfl
  unfold nextRow
  simp only [narrow, terminalScroll_eq]
  rw [if_pos le_rfl]
  rfl

theorem saveWindowContent_eq (t : Terminal) :
    saveWindowContent t = some { t with
      savedScreen := drawn t.videoMem t.savedScreen (vgaHeight * vgaWidth)
      savedRow := t.terminalRow % 2 ^ 8
      savedCol := t.terminalCol % 2 ^ 8
      terminalRow := 0
      terminalCol := 0 } := by
  let states (k : Nat) : Terminal := { t with
    savedScreen := drawn t.videoMem t.savedScreen k
    savedRow := t.terminalRow % 2 ^ 8
    savedCol := t.terminalCol % 2 ^ 8 }
  have step : ∀ i j, i < vgaHeight → j < vgaWidth →
      (((states (i * vgaWidth + j)).readCell (i * vgaWidth + j)).map fun cell =>
        { states (i * vgaWidth + j) with
          savedScreen := Function.update (states (i * vgaWidth + j)).savedScreen
            (i * vgaWidth + j) cell }) = some (states (i * vgaWidth + j + 1)) := by
    intro i j row column
    rw [Terminal.readCell_eq _ (grid_inside row column), Option.map_some]
    simp only [states, update_drawn]
  have start : states 0 = { t with
      savedRow := t.terminalRow % 2 ^ 8, savedCol := t.terminalCol % 2 ^ 8 } := by
    simp only [states, drawn_zero]
  unfold saveWindowContent
  simp only
  rw [← start, forGrid_eq states step]
  rfl

theorem retriveSavedWindow_eq (t : Terminal) :
    retriveSavedWindow t = some { t with
      videoMem := drawn t.savedScreen t.videoMem (vgaHeight * vgaWidth)
      terminalRow := t.savedRow
      terminalCol := t.savedCol } := by
  unfold retriveSavedWindow
  rw [forGrid_drawn t t.savedScreen, Option.map_some]
  intro y x row column
  rw [Terminal.writeCell_eq _ _ (grid_inside row column)]
  simp only [update_drawn]

end LazyOS.Drivers
