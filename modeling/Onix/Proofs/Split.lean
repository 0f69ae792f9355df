import Onix.Proofs.Contents
import Onix.Sanity.FileTable

/-! Reads and writes in pieces: consecutive calls on a descriptor do to a file, and show of it,
what one call over the whole range does. -/

namespace Onix.Fs

open Function Prog Bytes

variable {s t u : State} {fd file inode n c size k : ℕ} {D : Set ℕ} {m : ℕ → ℕ} {counts : List ℕ}
  {bytes : List Byte} {bufs : List (List Byte)} {byte : ℕ → Byte}

section Calls

/-- Descriptor `fd` is `file`, which is open on `inode` at offset `n`. -/
structure OpenOn (s : State) (fd file inode n : ℕ) : Prop where
  held : s.task.files fd = some file
  target : (s.fileTable file).inode = some inode
  offset : (s.fileTable file).offset = n

end Calls

section Pieces

/-- What a read of `count` bytes at `n` shows of a file of this size. -/
def shown (size : ℕ) (byte : ℕ → Byte) (n count : ℕ) : Option (List Byte) :=
  if n < size then some ((List.range' n (min count (size - n))).map byte) else none

/-- What consecutive reads from `n` on show. -/
def pieces (size : ℕ) (byte : ℕ → Byte) : ℕ → List ℕ → List (Option (List Byte))
  | _, [] => []
  | n, count :: counts => shown size byte n count :: pieces size byte (n + count) counts

end Pieces

section Turns

theorem Later.files (h : Later inode D m s t) : t.fileTable = s.fileTable ∧ t.task = s.task := by
  induction h with
  | here => exact ⟨rfl, rfl⟩
  | bmap _ _ hb ih =>
    have hsame := bmap_same _ _ _ _ _ _ hb
    exact ⟨hsame.fileTable.trans ih.1, hsame.fixed.task.trans ih.2⟩
  | @store t u _ hs ih =>
    have htask : u.task = t.task := hs.same.fixed.task
    exact ⟨hs.same.fileTable.trans ih.1, htask.trans ih.2⟩

/-- `file->offset += len` of an open file. -/
theorem OpenOn.advance (ho : OpenOn s fd file inode n) (hu : u.fileTable = s.fileTable)
    (htask : u.task = s.task) (hlt : n + c < 2 ^ 31) :
    OpenOn (u.advance file c) fd file inode (n + c) := by
  have hself : (u.advance file c).fileTable file =
      { s.fileTable file with offset := i32 ((s.fileTable file).offset + c) } := by
    rw [← hu]
    exact update_self ..
  refine ⟨?_, ?_, ?_⟩
  · exact (congrArg (fun task : TaskT => task.files fd) htask).trans ho.held
  · rw [hself]
    exact ho.target
  · rw [hself, ho.offset]
    dsimp only
    rw [← Nat.cast_add]
    exact i32_of_nonneg (by omega) (by omega)

end Turns

end Onix.Fs
