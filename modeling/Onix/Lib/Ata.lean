import Mathlib

/-! Two ATA drives on one channel, as far as transfers with 28-bit addresses and programmed input and
output go: the registers of the command block, the data register, and the interrupt line. A drive is
busy with a sector for any time. -/

namespace Onix.Ata

open Function

abbrev Word := BitVec 16

/-- 512 bytes. -/
abbrev Sector := {ws : List Word // ws.length = 256}

/-- A transfer has come to the sector `lba` of a drive, with `left` sectors to come. -/
structure Transfer where
  slave : Bool
  lba : ℕ
  left : ℕ
  deriving DecidableEq

def Transfer.next (t : Transfer) : Option Transfer :=
  if t.left = 0 then none else some { t with lba := t.lba + 1, left := t.left - 1 }

inductive Phase where
  | idle
  /-- Busy with a sector to be sent. -/
  | fetching (t : Transfer)
  /-- Busy before it takes the first sector. -/
  | preparing (t : Transfer)
  /-- The words still to be read. -/
  | sending (t : Transfer) (words : List Word)
  /-- The words written so far. -/
  | receiving (t : Transfer) (words : List Word)
  /-- Busy with a sector received. -/
  | storing (t : Transfer) (sector : Sector)

/-- A `prompt` channel takes the first sector of a transfer as soon as it has the command. -/
structure Channel where
  disk : Bool → ℕ → Sector
  prompt : Bool
  count : BitVec 8
  lbaLow : BitVec 8
  lbaMid : BitVec 8
  lbaHigh : BitVec 8
  device : BitVec 8
  phase : Phase
  intrq : Bool

namespace Channel

variable (c : Channel)

/-- `BSY`, `DRDY`, `DSC` and `DRQ`. -/
def status : BitVec 8 :=
  match c.phase with
  | .idle => 0x50
  | .fetching _ => 0x80
  | .preparing _ => 0x80
  | .sending _ _ => 0x58
  | .receiving _ _ => 0x58
  | .storing _ _ => 0x80

def busy : Bool :=
  match c.phase with
  | .fetching _ => true
  | .preparing _ => true
  | .storing _ _ => true
  | _ => false

/-- The transfer that the registers describe. -/
def transfer : Transfer where
  slave := c.device.getLsbD 4
  lba := c.lbaLow.toNat + 2 ^ 8 * (c.lbaMid.toNat + 2 ^ 8 * (c.lbaHigh.toNat + 2 ^ 8 * (c.device.toNat % 16)))
  left := (c.count - 1).toNat

/-- The commands to read and to write sectors. -/
def command (value : BitVec 8) : Option Channel :=
  if value = 0x20 then some { c with phase := .fetching c.transfer }
  else if value = 0x30 then
    some { c with phase := if c.prompt then .receiving c.transfer [] else .preparing c.transfer }
  else none

/-- A write to a register, which may not happen in a transfer. -/
def outb (port : ℕ) (value : BitVec 8) : Option Channel :=
  match c.phase, port with
  | .idle, 1 => some c
  | .idle, 2 => some { c with count := value }
  | .idle, 3 => some { c with lbaLow := value }
  | .idle, 4 => some { c with lbaMid := value }
  | .idle, 5 => some { c with lbaHigh := value }
  | .idle, 6 => some { c with device := value }
  | .idle, 7 => c.command value
  | _, _ => none

/-- A read of the data register, which has a word only while the drive sends. -/
def inw : Option (Word × Channel) :=
  match c.phase with
  | .sending t [w] => some (w, { c with phase := t.next.elim .idle .fetching })
  | .sending t (w :: ws) => some (w, { c with phase := .sending t ws })
  | _ => none

/-- A write to the data register, which takes a word only while the drive receives. -/
def outw (w : Word) : Option Channel :=
  match c.phase with
  | .receiving t ws =>
    if h : (ws ++ [w]).length = 256 then some { c with phase := .storing t ⟨ws ++ [w], h⟩ }
    else some { c with phase := .receiving t (ws ++ [w]) }
  | _ => none

/-- The drive is through with a sector. -/
def finish : Option Channel :=
  match c.phase with
  | .fetching t => some { c with phase := .sending t (c.disk t.slave t.lba).1, intrq := true }
  | .preparing t => some { c with phase := .receiving t [] }
  | .storing t sector => some { c with
      disk := update c.disk t.slave (update (c.disk t.slave) t.lba sector)
      phase := t.next.elim .idle fun t => .receiving t []
      intrq := true }
  | _ => none

/-- A read of the status register ends the interrupt. -/
def ack : Channel := { c with intrq := false }

def inws : ℕ → Channel → Option (List Word × Channel)
  | 0, c => some ([], c)
  | n + 1, c => do
    let (w, c) ← c.inw
    let (ws, c) ← inws n c
    return (w :: ws, c)

def outws : List Word → Channel → Option Channel
  | [], c => some c
  | w :: ws, c => do
    let c ← c.outw w
    outws ws c

variable {c} {t : Transfer} {w : Word} {ws vs : List Word} {port : ℕ} {value : BitVec 8}

/-- The words of a sector read one after the other. -/
theorem inws_sending (h : c.phase = .sending t ws) (hne : ws ≠ []) :
    inws ws.length c = some (ws, { c with phase := t.next.elim .idle .fetching }) := by
  induction ws generalizing c with
  | nil => exact absurd rfl hne
  | cons w ws ih =>
    cases ws with
    | nil =>
      have hin : c.inw = some (w, { c with phase := t.next.elim .idle .fetching }) := by
        unfold inw
        rw [h]
      rw [List.length_singleton, inws, hin]
      rfl
    | cons v vs =>
      have hin : c.inw = some (w, { c with phase := .sending t (v :: vs) }) := by
        unfold inw
        rw [h]
      have hrest : inws (v :: vs).length { c with phase := .sending t (v :: vs) } = _ :=
        ih rfl (List.cons_ne_nil _ _)
      rw [List.length_cons, inws, hin, Option.bind_eq_bind, Option.bind_some]
      simp only [hrest]
      rfl

/-- The words of a sector written one after the other. -/
theorem outws_receiving (h : c.phase = .receiving t vs) (hne : ws ≠ []) (hlen : (vs ++ ws).length = 256) :
    outws ws c = some { c with phase := .storing t ⟨vs ++ ws, hlen⟩ } := by
  induction ws generalizing c vs with
  | nil => exact absurd rfl hne
  | cons w ws ih =>
    cases ws with
    | nil =>
      unfold outws outw
      simp only [h, dif_pos hlen, Option.bind_eq_bind, Option.bind_some]
      rfl
    | cons u us =>
      have hnot : ¬ (vs ++ [w]).length = 256 := by
        simp only [List.length_append, List.length_cons, List.length_nil] at hlen ⊢
        omega
      have hout : c.outw w = some { c with phase := .receiving t (vs ++ [w]) } := by
        unfold outw
        simp only [h, dif_neg hnot]
      have hrest := ih (c := { c with phase := .receiving t (vs ++ [w]) }) rfl (List.cons_ne_nil _ _)
        (by rw [List.append_assoc]; exact hlen)
      rw [outws, hout, Option.bind_eq_bind, Option.bind_some, hrest]
      simp only [List.append_assoc, List.singleton_append]

theorem command_read : c.command 0x20 = some { c with phase := .fetching c.transfer } := rfl

theorem command_write (h : c.prompt = true) :
    c.command 0x30 = some { c with phase := .receiving c.transfer [] } := by
  unfold command
  rw [if_neg (by decide), if_pos rfl, if_pos h]

/-- Only a busy drive gets through with a sector. -/
theorem status_of_finish {c' : Channel} (h : c.finish = some c') : c.status = 0x80 := by
  unfold finish at h
  unfold status
  cases hp : c.phase with
  | fetching | preparing | storing => rfl
  | idle | sending | receiving =>
    rw [hp] at h
    exact absurd h.symm (Option.some_ne_none c')

end Channel

end Onix.Ata
