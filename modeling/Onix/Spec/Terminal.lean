import Onix.Spec.Console

/-! The terminal that the console stands for: rows of cells with no memory
behind them. What a cell holds is a parameter. -/

namespace Onix.Console

open Function

/-- What the cells are filled with: an erased cell, a character, and the cells of
the row that a scroll brings in, by column. -/
structure Look (α : Type) where
  erased : α
  char : Byte → α
  fresh : ℕ → α

/-- The cells, row by row, the cursor, and how often the rows have moved up. -/
structure Term (α : Type) where
  cell : ℕ → α
  x : ℕ
  y : ℕ
  scrolls : ℕ

namespace Term

variable {α : Type} (l : Look α) (t : Term α)

def init : Term α := ⟨fun _ => l.erased, 0, 0, 0⟩

/-- Every row moves up by one. -/
def scroll : Term α :=
  { t with
    cell := fun k =>
      if k < WIDTH * (HEIGHT - 1) then t.cell (k + WIDTH) else l.fresh (k - WIDTH * (HEIGHT - 1))
    scrolls := t.scrolls + 1 }

def lf : Term α := if t.y + 1 < HEIGHT then { t with y := t.y + 1 } else t.scroll l

def cr : Term α := { t with x := 0 }

def bs : Term α :=
  if t.x = 0 then t
  else { t with x := t.x - 1, cell := update t.cell (WIDTH * t.y + (t.x - 1)) l.erased }

def del : Term α := { t with cell := update t.cell (WIDTH * t.y + t.x) l.erased }

/-- A character after the last column goes to the next line. -/
def wrap : Term α := if WIDTH ≤ t.x then lf l { t with x := 0 } else t

def put (ch : Byte) : Term α :=
  { t with x := t.x + 1, cell := update t.cell (WIDTH * t.y + t.x) (l.char ch) }

def step (ch : Byte) : Term α :=
  match key ch with
  | .nul | .bel | .ht | .vt => t
  | .bs => t.bs l
  | .lf => (t.lf l).cr
  | .ff => t.lf l
  | .cr => t.cr
  | .del => t.del l
  | .char => (t.wrap l).put l ch

def run (bytes : List Byte) : Term α := bytes.foldl (step l) (init l)

end Term

/-- The cell of a character: its byte, and the attribute in the high byte. -/
def charCell (ch : Byte) : ℕ := ch.toNat + 2 ^ 8 * attr

/-- The reference terminal: the new row of a scroll is erased. -/
def plain : Look ℕ := ⟨erase, charCell, fun _ => erase⟩

/-- The terminal that `scroll_up` keeps: every second cell of the new row is 0. -/
def striped : Look ℕ := ⟨erase, charCell, fun col => if col % 2 = 0 then erase else 0⟩

/-- Which cells a scroll left at 0. -/
def missed : Look Bool := ⟨false, fun _ => false, fun col => !decide (col % 2 = 0)⟩

/-- The bytes never make the rows move up. -/
def Unscrolled (bytes : List Byte) : Prop := (Term.run missed bytes).scrolls = 0

/-- The rows moved up less than 77 times, and each cell that a scroll left at 0 was
written since or has moved out. -/
def Covered (bytes : List Byte) : Prop :=
  (Term.run missed bytes).scrolls < 77 ∧
    ∀ k < WIDTH * HEIGHT, (Term.run missed bytes).cell k = false

instance (bytes : List Byte) : Decidable (Unscrolled bytes) :=
  inferInstanceAs (Decidable (_ = _))

instance (bytes : List Byte) : Decidable (Covered bytes) := inferInstanceAs (Decidable (_ ∧ _))

/-- The console shows what the reference terminal shows, and stored to the video
memory only. -/
structure Agrees (s : State) (bytes : List Byte) : Prop where
  cell : ∀ k < WIDTH * HEIGHT, s.cell k = (Term.run plain bytes).cell k
  stored : ∀ a ∈ s.video.stored, MEM_BASE ≤ a ∧ a < MEM_END

end Onix.Console
