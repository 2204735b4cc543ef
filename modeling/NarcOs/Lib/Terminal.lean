import Mathlib

/-!
# A character terminal

A screen of cells with a cursor, in terms of rows and columns alone. The cursor is
inside the screen by its type. A character goes to the cursor's cell and moves the
cursor on, to the next row behind the last column; behind the last row the screen
scrolls, and the row that comes in is blank.
-/

namespace NarcOs

structure Terminal (rows cols : Nat) (α : Type*) where
  cell : Fin rows → Fin cols → α
  row : Fin rows
  col : Fin cols

inductive Action (α : Type*)
  | glyph (a : α)
  | newline
  | carriageReturn
  | tab
  | ignore

namespace Terminal

variable {rows cols : Nat} {α : Type*} (blank : α)

def clear (hrows : 0 < rows) (hcols : 0 < cols) : Terminal rows cols α :=
  ⟨fun _ _ => blank, ⟨0, hrows⟩, ⟨0, hcols⟩⟩

def scroll (t : Terminal rows cols α) : Terminal rows cols α :=
  { t with cell := fun r c => if h : r + 1 < rows then t.cell ⟨r + 1, h⟩ c else blank }

def carriageReturn (t : Terminal rows cols α) : Terminal rows cols α :=
  { t with col := ⟨0, Nat.zero_lt_of_lt t.col.isLt⟩ }

def newline (t : Terminal rows cols α) : Terminal rows cols α :=
  let t := t.carriageReturn
  if h : t.row + 1 < rows then { t with row := ⟨t.row + 1, h⟩ } else t.scroll blank

def setCell (t : Terminal rows cols α) (a : α) : Terminal rows cols α :=
  { t with cell := fun r c => if r = t.row ∧ c = t.col then a else t.cell r c }

def put (t : Terminal rows cols α) (a : α) : Terminal rows cols α :=
  let t := t.setCell a
  if h : t.col + 1 < cols then { t with col := ⟨t.col + 1, h⟩ } else t.newline blank

def tab (width : Nat) (t : Terminal rows cols α) : Terminal rows cols α :=
  (List.range (width - t.col % width)).foldl (fun t _ => t.put blank blank) t

def act (width : Nat) (t : Terminal rows cols α) : Action α → Terminal rows cols α
  | .glyph a => t.put blank a
  | .newline => t.newline blank
  | .carriageReturn => t.carriageReturn
  | .tab => t.tab blank width
  | .ignore => t

def run (width : Nat) (t : Terminal rows cols α) (actions : List (Action α)) : Terminal rows cols α :=
  actions.foldl (act blank width) t

end Terminal

end NarcOs
