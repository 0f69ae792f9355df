import Onix.Sanity.BallocSpec
import Onix.Sanity.FsFrame

/-! The fields of an inode descriptor after a run of writes to them. -/

namespace Onix.Fs

open Function Prog Bytes

section Writes

variable (s : State) (b i : ℕ) (d : Block)

/-- The next reading of the time is due. -/
def State.tick : State := { s with ticks := s.ticks + 1 }

theorem time_bind {α : Type} (f : ℕ → Prog State α) :
    (time >>= f) s = f (s.clock s.ticks) s.tick := rfl

theorem bwrite_some : bwrite (some b) s = some ((), s.cleaned b) := rfl

@[simp] theorem ibuf_setData : (s.setData b d).ibuf i = s.ibuf i := rfl

@[simp] theorem idesc_setData : (s.setData b d).idesc i = s.idesc i := rfl

@[simp] theorem task_setData : (s.setData b d).task = s.task := rfl

@[simp] theorem ibuf_setDirty : (s.setDirty b).ibuf i = s.ibuf i := rfl

@[simp] theorem idesc_setDirty : (s.setDirty b).idesc i = s.idesc i := rfl

@[simp] theorem task_setDirty : (s.setDirty b).task = s.task := rfl

@[simp] theorem ibuf_tick : s.tick.ibuf i = s.ibuf i := rfl

@[simp] theorem idesc_tick : s.tick.idesc i = s.idesc i := rfl

@[simp] theorem ibuf_cleaned : (s.cleaned b).ibuf i = s.ibuf i := rfl

@[simp] theorem idesc_cleaned : (s.cleaned b).idesc i = s.idesc i := rfl

@[simp] theorem data_tick : s.tick.data = s.data := rfl

end Writes

variable {s t : State} {i mode : ℕ}

/-- What `inode_open` stores in the descriptor of a new file. -/
theorem openInode_fields (h : openInode i mode s = some ((), t)) :
    t.mode i = s.newMode mode IFREG % 2 ^ 16 ∧ t.uid i = s.task.uid % 2 ^ 16 ∧
      t.gid i = s.task.gid % 2 ^ 8 ∧ t.nlinks i = 1 ∧ t.size i = 0 := by
  unfold openInode at h
  simp only [poke_bind, time_bind, poke_apply, Option.some.injEq, Prod.mk.injEq, true_and] at h
  subst h
  simp only [State.setUid, State.setGid, State.setMode, State.setMtime, State.setSize,
    State.setNlinks, State.dirtyInode, State.mode, State.uid, State.gid, State.nlinks, State.size,
    State.newMode, ibuf_setData, idesc_setData, task_setData, ibuf_tick, idesc_tick, data_tick,
    ibuf_setDirty, idesc_setDirty, data_setData, data_setDirty, update_self]
  simp (disch := omega) only [rd16_wr8_ne, rd16_wr16, rd16_wr16_ne, rd16_wr32_ne, rd8_wr8_self,
    rd8_wr8_ne, rd8_wr16_ne, rd8_wr32_ne, rd32_wr8_ne, rd32_wr32]
  simp

/-- `inode_truncate` leaves a file of size 0; it does nothing to a special file. -/
theorem inodeTruncate_size (h : inodeTruncate i s = some ((), t)) : t.size i = 0 ∨ t = s := by
  unfold inodeTruncate at h
  rw [peek_bind] at h
  split_ifs at h with hmode
  · simp only [pure_apply, Option.some.injEq, Prod.mk.injEq, true_and] at h
    exact .inr h.symm
  left
  obtain ⟨⟨⟩, s₁, -, k₁⟩ := bind_eq_some.mp h
  obtain ⟨⟨⟩, s₂, -, k₂⟩ := bind_eq_some.mp k₁
  obtain ⟨⟨⟩, s₃, -, k₃⟩ := bind_eq_some.mp k₂
  simp only [poke_bind, time_bind, peek_bind, bwrite_some, Option.some.injEq, Prod.mk.injEq,
    true_and] at k₃
  subst k₃
  simp only [State.size, State.setSize, State.setMtime, State.dirtyInode, data_cleaned, ibuf_cleaned,
    idesc_cleaned, ibuf_setData, idesc_setData, ibuf_tick, idesc_tick, data_tick, ibuf_setDirty,
    idesc_setDirty, data_setData, data_setDirty, update_self]
  simp (disch := omega) only [rd32_wr32_ne, rd32_wr32]
  rfl

end Onix.Fs
