import LazyOS.Data.Loop
import LazyOS.Str

namespace LazyOS.Drivers

open LazyOS.Data

/-! The text screen of `VGA.c`.  An operation is `none` when it comes to an index of
`video_mem` outside the screen, or never ends. -/

def vgaWidth : Nat := 80

def vgaHeight : Nat := 20

inductive Color where
  | black | blue | green | cyan | red | purple | brown | gray
  | darkGray | lightBlue | lightGreen | lightCyan | lightRed | lightPurple
  | yellow | white
deriving DecidableEq

def Color.code : Color → Byte
  | .black => 0
  | .blue => 1
  | .green => 2
  | .cyan => 3
  | .red => 4
  | .purple => 5
  | .brown => 6
  | .gray => 7
  | .darkGray => 8
  | .lightBlue => 9
  | .lightGreen => 10
  | .lightCyan => 11
  | .lightRed => 12
  | .lightPurple => 13
  | .yellow => 14
  | .white => 15

/-- Rows and columns are `uint16_t`, the saved ones `uint8_t`. -/
structure Terminal where
  videoMem : Nat → Half
  terminalRow : Nat
  terminalCol : Nat
  savedScreen : Nat → Half
  savedRow : Nat
  savedCol : Nat

def Terminal.readCell (t : Terminal) (location : Nat) : Option Half :=
  if location < vgaHeight * vgaWidth then some (t.videoMem location) else none

def Terminal.writeCell (t : Terminal) (location : Nat) (value : Half) :
    Option Terminal :=
  if location < vgaHeight * vgaWidth then
    some { t with videoMem := Function.update t.videoMem location value }
  else none

/-- `c` is a signed `char`: its sign bit reaches the colour. -/
def terminalMakeChar (c : Byte) (fg bg : Color) : Half :=
  let color : Byte := (bg.code <<< 4) ||| fg.code
  (color.setWidth 16 <<< 8) ||| c.signExtend 16

def blank : Half := terminalMakeChar 0x20 .black .black

def terminalPutChar (x y : Nat) (fg bg : Color) (ch : Byte) (t : Terminal) :
    Option Terminal :=
  let location := (y * vgaWidth + x) % 2 ^ 16
  t.writeCell location (terminalMakeChar ch fg bg)

def blankScreen (t : Terminal) : Option Terminal :=
  forGrid vgaHeight vgaWidth (fun y x t => terminalPutChar x y .black .black 0x20 t) t

def terminalInitialize (t : Terminal) : Option Terminal :=
  blankScreen { t with terminalRow := 0, terminalCol := 0 }

def terminalScroll (t : Terminal) : Option Terminal :=
  (forGrid (vgaHeight - 1) vgaWidth (fun y x t =>
    (t.readCell ((y + 1) * vgaWidth + x)).bind fun cell =>
      t.writeCell (y * vgaWidth + x) cell) t).bind fun t =>
  forRange vgaWidth (fun x t => t.writeCell ((vgaHeight - 1) * vgaWidth + x) blank) t

def nextRow (t : Terminal) : Option Terminal :=
  let t := { t with terminalRow := (t.terminalRow + 1) % 2 ^ 16, terminalCol := 0 }
  if t.terminalRow ≥ vgaHeight then
    (terminalScroll t).map fun t => { t with terminalRow := vgaHeight - 1 }
  else some t

def newlineChar : Byte := 0x0A

def terminalWriteChar (c : Byte) (fg bg : Color) (t : Terminal) : Option Terminal :=
  if c = newlineChar then nextRow t
  else
    (if t.terminalCol ≥ vgaWidth then nextRow t else some t).bind fun t =>
    (terminalPutChar t.terminalCol t.terminalRow fg bg c t).map fun t =>
      { t with terminalCol := (t.terminalCol + 1) % 2 ^ 16 }

/-- `msg` is the text before the terminator. -/
def printColor : (msg : List Byte) → (fg bg : Color) → Terminal → Option Terminal
  | [], _, _, t => some t
  | c :: rest, fg, bg, t => (terminalWriteChar c fg bg t).bind (printColor rest fg bg)

def print (msg : List Byte) (t : Terminal) : Option Terminal :=
  printColor msg .white .black t

def terminalClear (t : Terminal) : Option Terminal :=
  (blankScreen t).map fun t => { t with terminalCol := 0, terminalRow := 0 }

def backOne (t : Terminal) : Terminal :=
  if t.terminalCol = 0 then
    if t.terminalRow = 0 then t
    else { t with terminalRow := t.terminalRow - 1, terminalCol := vgaWidth }
  else { t with terminalCol := t.terminalCol - 1 }

def attrByte (cell : Half) : Byte := (cell >>> 8).setWidth 8

def cellAttr (x y : Nat) (t : Terminal) : Option Byte :=
  (t.readCell (y * vgaWidth + x)).map attrByte

def backspaceLoop : (turns : Nat) → Terminal → Option Terminal
  | 0, _ => none
  | turns + 1, t =>
      if t.terminalCol = 0 ∧ t.terminalRow = 0 then some t
      else
        (cellAttr t.terminalCol t.terminalRow t).bind fun attr =>
          if attr = 0 then backspaceLoop turns (backOne t) else some t

/-- The steps `back_one` takes to the first cell: a row has one more position than
it has cells. -/
def stepsBack (t : Terminal) : Nat := (vgaWidth + 1) * t.terminalRow + t.terminalCol

def backspace (t : Terminal) : Option Terminal :=
  if t.terminalCol = 0 ∧ t.terminalRow = 0 then some t
  else
    (backspaceLoop (stepsBack t + 1) (backOne t)).bind fun t =>
      terminalPutChar t.terminalCol t.terminalRow .black .black 0x20 t

def saveWindowContent (t : Terminal) : Option Terminal :=
  let t := { t with
    savedRow := t.terminalRow % 2 ^ 8
    savedCol := t.terminalCol % 2 ^ 8 }
  (forGrid vgaHeight vgaWidth (fun i j t =>
    (t.readCell (i * vgaWidth + j)).map fun cell =>
      { t with savedScreen :=
          Function.update t.savedScreen (i * vgaWidth + j) cell }) t).map fun t =>
  { t with terminalRow := 0, terminalCol := 0 }

def enterEditorMode (filename : List Byte) (t : Terminal) : Option Terminal :=
  (terminalClear t).bind fun t =>
  (printColor (literal "Termianl mode :") .green .black t).bind fun t =>
  (printColor filename .cyan .black t).bind fun t =>
  print (literal "\n\n") t

def retriveSavedWindow (t : Terminal) : Option Terminal :=
  (forGrid vgaHeight vgaWidth (fun i j t =>
    t.writeCell (i * vgaWidth + j) (t.savedScreen (i * vgaWidth + j))) t).map fun t =>
  { t with terminalRow := t.savedRow, terminalCol := t.savedCol }

end LazyOS.Drivers
