import Onix.Spec.Inode
import Onix.Spec.Sched

/-! The time of day: `sys_time` of `kernel/clock.c`, which counts the ticks of
`clock_handler` on from `startup_time`, and the stamps that `inode_write` makes with it. -/

namespace Onix.Sched

/-- The ticks of the clock in a second. -/
def HZ : ℕ := 100

/-- `sys_time()`. -/
def sysTime (startupTime jiffies : ℕ) : ℕ :=
  (startupTime + jiffies * JIFFY % 2 ^ 32 / 1000) % 2 ^ 32

/-- How often an action calls `clock_handler`. -/
def Act.ticks : Act → ℕ
  | .clock => 1
  | _ => 0

def ticks (as : List Act) : ℕ := (as.map Act.ticks).sum

variable (startupTime j₁ j₂ : ℕ)

/-- An `inode_write` during the tick `j` that leads from `s` to `t`. -/
def WrittenAt (j : ℕ) (s : Fs.State) (inode : ℕ) (t : Fs.State) : Prop :=
  (∀ k, s.clock k = sysTime startupTime j) ∧
    ∃ bytes offset n, Fs.inodeWrite inode bytes offset s = some (n, t)

/-- From the tick `j₁` to the tick `j₂` the time goes on by the seconds between them, up to
one, and no file written at `j₂` has an older stamp than one written at `j₁`. -/
structure TimeGoesOn : Prop where
  order : sysTime startupTime j₁ ≤ sysTime startupTime j₂
  least : (j₂ - j₁) / HZ ≤ sysTime startupTime j₂ - sysTime startupTime j₁ + 1
  most : sysTime startupTime j₂ - sysTime startupTime j₁ ≤ (j₂ - j₁) / HZ + 1
  stamps : ∀ s₁ i₁ t₁ s₂ i₂ t₂, WrittenAt startupTime j₁ s₁ i₁ t₁ →
    WrittenAt startupTime j₂ s₂ i₂ t₂ → t₁.mtime i₁ ≤ t₂.mtime i₂ ∧
      (t₁.inodeTable i₁).atime ≤ (t₂.inodeTable i₂).atime

end Onix.Sched
