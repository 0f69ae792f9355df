import Onix.Lib.Bytes

/-! The scan codes of `kernel/keyboard.c`: what `keyboard_handler` keeps about the
keys, and the character that a scan code gives. -/

namespace Onix.Keyboard

open Function

def INV : Byte := 0
def CODE_PRINT_SCREEN_DOWN : ℕ := 0xB7
def KEY_SHIFT_L : ℕ := 0x2A
def KEY_SLASH : ℕ := 0x35
def KEY_SHIFT_R : ℕ := 0x36
def KEY_CAPSLOCK : ℕ := 0x3A
def KEY_NUMLOCK : ℕ := 0x45
def KEY_SCRLOCK : ℕ := 0x46
def KEY_PRINT_SCREEN : ℕ := 0x5F

/-- The first two columns of `keymap`, eight keys a line. -/
def keymapTable : List (Byte × Byte) :=
  [(INV, INV), (0x1b, 0x1b), (0x31, 0x21), (0x32, 0x40), (0x33, 0x23), (0x34, 0x24), (0x35, 0x25), (0x36, 0x5e),
   (0x37, 0x26), (0x38, 0x2a), (0x39, 0x28), (0x30, 0x29), (0x2d, 0x5f), (0x3d, 0x2b), (0x08, 0x08), (0x09, 0x09),
   (0x71, 0x51), (0x77, 0x57), (0x65, 0x45), (0x72, 0x52), (0x74, 0x54), (0x79, 0x59), (0x75, 0x55), (0x69, 0x49),
   (0x6f, 0x4f), (0x70, 0x50), (0x5b, 0x7b), (0x5d, 0x7d), (0x0a, 0x0a), (INV, INV), (0x61, 0x41), (0x73, 0x53),
   (0x64, 0x44), (0x66, 0x46), (0x67, 0x47), (0x68, 0x48), (0x6a, 0x4a), (0x6b, 0x4b), (0x6c, 0x4c), (0x3b, 0x3a),
   (0x27, 0x22), (0x60, 0x7e), (INV, INV), (0x5c, 0x7c), (0x7a, 0x5a), (0x78, 0x58), (0x63, 0x43), (0x76, 0x56),
   (0x62, 0x42), (0x6e, 0x4e), (0x6d, 0x4d), (0x2c, 0x3c), (0x2e, 0x3e), (0x2f, 0x3f), (INV, INV), (0x2a, 0x2a),
   (INV, INV), (0x20, 0x20), (INV, INV), (INV, INV), (INV, INV), (INV, INV), (INV, INV), (INV, INV),
   (INV, INV), (INV, INV), (INV, INV), (INV, INV), (INV, INV), (INV, INV), (INV, INV), (0x37, INV),
   (0x38, INV), (0x39, INV), (0x2d, 0x2d), (0x34, INV), (0x35, INV), (0x36, INV), (0x2b, 0x2b), (0x31, INV),
   (0x32, INV), (0x33, INV), (0x30, INV), (0x2e, 0x7f), (INV, INV), (INV, INV), (INV, INV), (INV, INV),
   (INV, INV), (INV, INV), (INV, INV), (INV, INV), (INV, INV), (INV, INV), (INV, INV), (INV, INV)]

/-- `keymap` as it is initialised; the last two columns say whether a key is down. -/
def keymapInit (makecode col : ℕ) : Byte :=
  let chars := keymapTable.getD makecode (INV, INV)
  if col = 0 then chars.1 else if col = 1 then chars.2 else 0

/-- The variables that `keyboard_handler` keeps between interrupts. -/
structure Keys where
  keymap : ℕ → ℕ → Byte
  capslock : Bool
  scrlock : Bool
  numlock : Bool
  extcode : Bool

/-- `keyboard_init`, after the image is loaded. -/
def keyboardInit : Keys := ⟨keymapInit, false, false, false, false⟩

section Handler

variable (s : Keys)

/-- `shift_state`. -/
def shiftState : Bool := s.keymap KEY_SHIFT_L 2 ≠ 0 || s.keymap KEY_SHIFT_R 2 ≠ 0

/-- `keymap[makecode][ext] = down`. -/
def setKey (makecode ext : ℕ) (down : Bool) : Keys :=
  { s with
    keymap := update s.keymap makecode
      (update (s.keymap makecode) ext (if down then 1 else 0)) }

/-- The lock keys; the lights that they also set are not part of the state. -/
def toggle (makecode : ℕ) : Keys :=
  if makecode = KEY_NUMLOCK then { s with numlock := !s.numlock }
  else if makecode = KEY_CAPSLOCK then { s with capslock := !s.capslock }
  else if makecode = KEY_SCRLOCK then { s with scrlock := !s.scrlock }
  else s

/-- `'a' <= c <= 'z'` in C: the first comparison gives 0 or 1, and that is compared
with `'z'`. -/
def between (c : Byte) : Bool := (if 0x61 ≤ c.toInt then 1 else 0) ≤ 0x7A

/-- The variable `shift`, which is the index of a column. -/
def shift (makecode : ℕ) : Bool :=
  let shift := s.capslock && between (s.keymap makecode 0)
  if shiftState s then !shift else shift

/-- The character of a key that went down. -/
def character (makecode ext : ℕ) : Byte :=
  if ext = 3 ∧ makecode ≠ KEY_SLASH then s.keymap makecode 1
  else s.keymap makecode (if shift s makecode then 1 else 0)

/-- `keyboard_handler` from the scan code it reads to the character it is to queue. -/
def scan (code : Byte) : Keys × Option Byte :=
  if code = 0xe0 then ({ s with extcode := true }, none)
  else
    let ext := if s.extcode then 3 else 2
    let scancode : BitVec 16 := code.setWidth 16 ||| (if s.extcode then 0xe000 else 0)
    let s := { s with extcode := false }
    let makecode := (scancode &&& 0x7f).toNat
    let makecode := if makecode = CODE_PRINT_SCREEN_DOWN then KEY_PRINT_SCREEN else makecode
    if KEY_PRINT_SCREEN < makecode then (s, none)
    else if scancode &&& 0x0080 ≠ 0 then (setKey s makecode ext false, none)
    else
      let s := toggle (setKey s makecode ext true) makecode
      let ch := character s makecode ext
      (s, if ch = INV then none else some ch)

end Handler

/-- The keys after the scan codes, from `keyboard_init` on. -/
def scans (codes : List Byte) : Keys := codes.foldl (fun s code => (scan s code).1) keyboardInit

section History

/-- The scan codes without the extended ones; `ext` behind a byte 0xe0. -/
def plainCodes (ext : Bool) : List Byte → List Byte
  | [] => []
  | c :: cs =>
    if c = 0xe0 then plainCodes true cs
    else if ext then plainCodes false cs
    else c :: plainCodes false cs

/-- The last byte announces an extended code. -/
def Pending (codes : List Byte) : Prop := codes.getLast? = some 0xe0

instance (codes : List Byte) : Decidable (Pending codes) := inferInstanceAs (Decidable (_ = _))

/-- The last scan code of the key, extended ones apart, is its make code. -/
def Held (key : ℕ) (codes : List Byte) : Prop :=
  ((plainCodes false codes).filter fun c => c.toNat % 0x80 = key).getLast? =
    some (BitVec.ofNat 8 key)

instance (key : ℕ) (codes : List Byte) : Decidable (Held key codes) :=
  inferInstanceAs (Decidable (_ = _))

/-- A shift key is held. -/
def ShiftHeld (codes : List Byte) : Prop := Held KEY_SHIFT_L codes ∨ Held KEY_SHIFT_R codes

instance (codes : List Byte) : Decidable (ShiftHeld codes) := inferInstanceAs (Decidable (_ ∨ _))

/-- Caps lock is on: it went down an odd number of times. -/
def CapsOn (codes : List Byte) : Prop := codes.count 0x3A % 2 = 1

instance (codes : List Byte) : Decidable (CapsOn codes) := inferInstanceAs (Decidable (_ = _))

def unshifted (make : Byte) : Byte := keymapInit make.toNat 0

def shifted (make : Byte) : Byte := keymapInit make.toNat 1

/-- The unshifted character of the key is a letter. -/
def Letter (make : Byte) : Prop := 0x61 ≤ (unshifted make).toNat ∧ (unshifted make).toNat ≤ 0x7A

instance (make : Byte) : Decidable (Letter make) := inferInstanceAs (Decidable (_ ∧ _))

/-- The character that a make code should give: caps lock and shift undo each other
on a letter, shift alone counts on any other key. -/
def lawful (codes : List Byte) (make : Byte) : Byte :=
  if Letter make then
    if ShiftHeld codes ↔ CapsOn codes then unshifted make else shifted make
  else if ShiftHeld codes then shifted make else unshifted make

/-- A character to be queued; there is none where the table holds `INV`. -/
def visible (ch : Byte) : Option Byte := if ch = INV then none else some ch

end History

end Onix.Keyboard
