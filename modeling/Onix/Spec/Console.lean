import Onix.Lib.Bytes

/-! `kernel/console.c`: the text console in the video memory, and the terminal
that it stands for. -/

namespace Onix.Console

def MEM_BASE : ℕ := 0xB8000
def MEM_SIZE : ℕ := 0x4000
def MEM_END : ℕ := MEM_BASE + MEM_SIZE
def WIDTH : ℕ := 80
def HEIGHT : ℕ := 25
def ROW_SIZE : ℕ := WIDTH * 2
def SCR_SIZE : ℕ := ROW_SIZE * HEIGHT

def attr : ℕ := 7
def erase : ℕ := 0x0720

/-- The memory, and the addresses of the bytes stored to. -/
structure Video where
  mem : Bytes
  stored : List ℕ

namespace Video

variable (m : Video) (ptr value : ℕ)

def poke8 : Video := ⟨m.mem.wr8 ptr value, ptr :: m.stored⟩

def poke16 : Video := ⟨m.mem.wr16 ptr value, ptr :: (ptr + 1) :: m.stored⟩

def poke32 : Video :=
  ⟨m.mem.wr32 ptr value, ptr :: (ptr + 1) :: (ptr + 2) :: (ptr + 3) :: m.stored⟩

/-- `memcpy`, byte by byte. -/
def memcpy (m : Video) (dest src : ℕ) : (count : ℕ) → Video
  | 0 => m
  | n + 1 => memcpy (m.poke8 dest (m.mem.rd8 src)) (dest + 1) (src + 1) n

/-- The loop of `console_clear`. -/
def clear (m : Video) (ptr : ℕ) : Video :=
  if ptr < MEM_END then clear (m.poke16 ptr erase) (ptr + 2) else m
termination_by MEM_END - ptr

/-- The loop of `scroll_up`: a store through a `u32 *`. -/
def blank (m : Video) (ptr : ℕ) : (count : ℕ) → Video
  | 0 => m
  | n + 1 => blank (m.poke32 ptr erase) (ptr + 4) n

end Video

/-- The variables of the console, and the two registers of the controller that
`set_screen` and `set_cursor` write. -/
structure State where
  video : Video
  screen : ℕ
  pos : ℕ
  x : ℕ
  y : ℕ
  start : ℕ
  cursor : ℕ

section Commands

variable (s : State)

/-- The two bytes sent to the controller for the address `a`. -/
def register (a : ℕ) : ℕ :=
  2 ^ 8 * (sub32 a MEM_BASE / 2 ^ 9 % 2 ^ 8) + sub32 a MEM_BASE / 2 % 2 ^ 8

def setScreen : State := { s with start := register s.screen }

def setCursor : State := { s with cursor := register s.pos }

/-- `console_clear`. -/
def consoleClear : State :=
  let s := { s with screen := MEM_BASE, pos := MEM_BASE, x := 0, y := 0 }
  let s := setScreen (setCursor s)
  { s with video := s.video.clear MEM_BASE }

/-- `scroll_up`. -/
def scrollUp : State :=
  let s :=
    if MEM_END ≤ (s.screen + SCR_SIZE + ROW_SIZE) % 2 ^ 32 then
      { s with
        video := s.video.memcpy MEM_BASE s.screen SCR_SIZE
        pos := sub32 s.pos (sub32 s.screen MEM_BASE)
        screen := MEM_BASE }
    else s
  let s := { s with video := s.video.blank ((s.screen + SCR_SIZE) % 2 ^ 32) WIDTH }
  setScreen { s with
    screen := (s.screen + ROW_SIZE) % 2 ^ 32
    pos := (s.pos + ROW_SIZE) % 2 ^ 32 }

/-- `command_lf`. -/
def commandLf : State :=
  if (s.y + 1) % 2 ^ 32 < HEIGHT then
    { s with y := (s.y + 1) % 2 ^ 32, pos := (s.pos + ROW_SIZE) % 2 ^ 32 }
  else scrollUp s

/-- `command_cr`. -/
def commandCr : State := { s with pos := sub32 s.pos (s.x * 2 % 2 ^ 32), x := 0 }

/-- `command_bs`. -/
def commandBs : State :=
  if s.x = 0 then s
  else
    let pos := sub32 s.pos 2
    { s with x := sub32 s.x 1, pos, video := s.video.poke16 pos erase }

/-- `command_del`. -/
def commandDel : State := { s with video := s.video.poke16 s.pos erase }

end Commands

/-- The cases of the `switch` in `console_write`. -/
inductive Key
  | nul | bel | bs | ht | lf | vt | ff | cr | del | char
  deriving DecidableEq

def key (ch : Byte) : Key :=
  if ch = 0x00 then .nul
  else if ch = 0x07 then .bel
  else if ch = 0x08 then .bs
  else if ch = 0x09 then .ht
  else if ch = 0x0A then .lf
  else if ch = 0x0B then .vt
  else if ch = 0x0C then .ff
  else if ch = 0x0D then .cr
  else if ch = 0x7F then .del
  else .char

section Write

variable (s : State) (ch : Byte)

/-- The pending wrap before a character. -/
def wrap : State :=
  if WIDTH ≤ s.x then
    commandLf { s with x := sub32 s.x WIDTH, pos := sub32 s.pos ROW_SIZE }
  else s

/-- The character and its attribute at `pos`. -/
def putChar : State :=
  { s with
    video := (s.video.poke8 s.pos ch.toNat).poke8 ((s.pos + 1) % 2 ^ 32) attr
    pos := (s.pos + 2) % 2 ^ 32
    x := (s.x + 1) % 2 ^ 32 }

/-- One turn of the loop of `console_write`; the bell is not part of the state. -/
def writeByte : State :=
  match key ch with
  | .nul | .bel | .ht | .vt => s
  | .bs => commandBs s
  | .lf => commandCr (commandLf s)
  | .ff => commandLf s
  | .cr => commandCr s
  | .del => commandDel s
  | .char => putChar (wrap s) ch

end Write

/-- The bytes before the cursor is shown. -/
def writeBytes (s : State) (buf : List Byte) : State := buf.foldl writeByte s

/-- `console_write` of the `count` bytes `buf`; the counter has gone one further
when the loop ends. -/
def consoleWrite (s : State) (buf : List Byte) : ℕ × State :=
  ((buf.length + 1) % 2 ^ 32, setCursor (writeBytes s buf))

/-- `console_write` call after call. -/
def consoleWrites (s : State) (bufs : List (List Byte)) : State :=
  bufs.foldl (fun s buf => (consoleWrite s buf).2) s

/-- `console_clear`, with the record of the stores begun there. -/
def cleared (s : State) : State := consoleClear { s with video := ⟨s.video.mem, []⟩ }

/-- The cell `k` of the screen, counted row by row. -/
def State.cell (s : State) (k : ℕ) : ℕ := s.video.mem.rd16 (s.screen + 2 * k)

end Onix.Console
