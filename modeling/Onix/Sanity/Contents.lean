import Onix.Sanity.Chunks
import Onix.Sanity.CellsSpec
import Onix.Sanity.DescFields
import Onix.Sanity.InodeSpec

/-! The contents of a file where `bmap` sends its blocks to fixed blocks of the device: what
one turn of the loops of `inode_write` and `inode_read` does to them, and the whole loops. -/

namespace Onix.Fs

open Function Prog Bytes

variable {s t u : State} {inode n k x left fuel : ℕ} {D : Set ℕ} {m : ℕ → ℕ} {bytes : List Byte}

section Premises

/-- What `inode_write` and `inode_read` do between their calls of `bmap`: they fill the blocks
`m k` and set the size and the times of the inode. -/
structure Stored (inode : ℕ) (D : Set ℕ) (m : ℕ → ℕ) (s t : State) : Prop where
  same : Same s { t with inodeTable := s.inodeTable }
  table : ∃ a, t.inodeTable = update s.inodeTable inode { s.inodeTable inode with atime := a }
  data : ∀ b i, (∀ k ∈ D, b ≠ m k) →
    ¬ (b = s.ibuf inode ∧ s.idesc inode + 4 ≤ i ∧ i < s.idesc inode + 12) → t.data b i = s.data b i

/-- What becomes of `s` by such stores and by calls of `bmap`. -/
inductive Later (inode : ℕ) (D : Set ℕ) (m : ℕ → ℕ) (s : State) : State → Prop where
  | here : Later inode D m s s
  | bmap {t u : State} {k r : ℕ} {create : Bool} : Later inode D m s t → k ∈ D →
      bmap inode k create t = some (r, u) → Later inode D m s u
  | store {t u : State} : Later inode D m s t → Stored inode D m t u → Later inode D m s u

/-- `bmap` finds block `k` of the file without creating it. -/
def Mapped (inode : ℕ) (m : ℕ → ℕ) (s : State) (k : ℕ) : Prop :=
  ∃ t, bmap inode k false s = some (m k, t)

/-- From `s` on `bmap` returns `m k` for block `k` of the file. -/
structure MapsTo (inode : ℕ) (D : Set ℕ) (m : ℕ → ℕ) (s : State) : Prop where
  dev : (s.inodeTable inode).dev = s.dev
  ne_zero : ∀ k ∈ D, m k ≠ 0
  inj : ∀ k ∈ D, ∀ l ∈ D, m k = m l → k = l
  apart : ∀ k ∈ D, m k ≠ s.ibuf inode
  create : ∀ t, Later inode D m s t → ∀ k ∈ D, ∃ u, bmap inode k true t = some (m k, u) ∧
    Mapped inode m u k ∧ (∀ l ∈ D, u.data (m l) = t.data (m l)) ∧ u.mode inode = t.mode inode ∧
    u.size inode = t.size inode
  again : ∀ t u, Later inode D m s t → Later inode D m t u → ∀ k ∈ D, Mapped inode m t k →
    Mapped inode m u k

theorem Later.trans (h : Later inode D m s t) (h' : Later inode D m t u) : Later inode D m s u := by
  induction h' with
  | here => exact h
  | bmap _ hk hb ih => exact .bmap ih hk hb
  | store _ hs ih => exact .store ih hs

/-- The inode keeps its place and its device. -/
theorem Later.kept (h : Later inode D m s t) : t.dev = s.dev ∧
    ∃ a, t.inodeTable inode = { s.inodeTable inode with atime := a } := by
  induction h with
  | here => exact ⟨rfl, _, rfl⟩
  | bmap _ _ hb ih =>
    have hsame := bmap_same _ _ _ _ _ _ hb
    obtain ⟨hd, a, ha⟩ := ih
    exact ⟨hsame.dev.trans hd, a, by rw [hsame.inodeTable, ha]⟩
  | store _ hs ih =>
    obtain ⟨hd, a, ha⟩ := ih
    obtain ⟨b, hb⟩ := hs.table
    refine ⟨hs.same.dev.trans hd, b, ?_⟩
    rw [hb, update_self, ha]

theorem Later.ibuf (h : Later inode D m s t) : t.ibuf inode = s.ibuf inode := by
  obtain ⟨-, a, ha⟩ := h.kept
  unfold State.ibuf
  rw [ha]

theorem Later.idesc (h : Later inode D m s t) : t.idesc inode = s.idesc inode := by
  obtain ⟨-, a, ha⟩ := h.kept
  unfold State.idesc
  rw [ha]

/-- Where no block has changed, the descriptor has not. -/
theorem Later.fields (h : Later inode D m s t) (hdata : t.data = s.data) :
    t.size inode = s.size inode ∧ t.mode inode = s.mode inode := by
  unfold State.size State.mode
  rw [h.ibuf, h.idesc, hdata]
  exact ⟨rfl, rfl⟩

theorem MapsTo.later (hm : MapsTo inode D m s) (h : Later inode D m s t) : MapsTo inode D m t := by
  obtain ⟨hd, a, ha⟩ := h.kept
  refine ⟨?_, hm.ne_zero, hm.inj, ?_, fun u hu => hm.create u (h.trans hu),
    fun u v hu hv => hm.again u v (h.trans hu) hv⟩
  · rw [ha, hd]
    exact hm.dev
  · rw [h.ibuf]
    exact hm.apart

theorem MapsTo.lt (hm : MapsTo inode D m s) (hk : k ∈ D) : k < TOTAL_BLOCK := by
  obtain ⟨u, hu, -⟩ := hm.create s .here k hk
  exact bmap_block hu

/-- The cache has changed, not in what it shows. -/
theorem Stored.of_data (hsame : Same s t) (hdata : t.data = s.data) : Stored inode D m s t := by
  refine ⟨⟨hsame.dev, hsame.sb, rfl, hsame.fileTable, hsame.tasks, hsame.running, hsame.clock⟩,
    ⟨(s.inodeTable inode).atime, ?_⟩, fun b i _ _ => by rw [hdata]⟩
  rw [hsame.inodeTable]
  exact (update_eq_self inode _).symm

end Premises

section Grow

/-- The size is set where it is less than `x`. -/
def State.grow (s : State) (inode x : ℕ) : State :=
  if s.size inode < x then (s.setSize inode x).dirtyInode inode else s

theorem when_grow : when (s.size inode < x) (poke fun s => (s.setSize inode x).dirtyInode inode) s =
    some ((), s.grow inode x) := by
  unfold State.grow
  by_cases h : s.size inode < x
  · rw [if_pos h, decide_eq_true h]
    rfl
  · rw [if_neg h, decide_eq_false h]
    rfl

theorem grow_same : Same s (s.grow inode x) := by
  unfold State.grow
  split_ifs <;> exact ⟨rfl, rfl, rfl, rfl, rfl, rfl, rfl⟩

theorem grow_data {b : ℕ} (hb : b ≠ s.ibuf inode) : (s.grow inode x).data b = s.data b := by
  unfold State.grow
  split_ifs
  · exact update_of_ne hb ..
  · rfl

theorem grow_byte {b i : ℕ}
    (h : ¬ (b = s.ibuf inode ∧ s.idesc inode + 4 ≤ i ∧ i < s.idesc inode + 12)) :
    (s.grow inode x).data b i = s.data b i := by
  obtain rfl | hb := eq_or_ne b (s.ibuf inode)
  · unfold State.grow
    split_ifs
    · have hset : ((s.setSize inode x).dirtyInode inode).data (s.ibuf inode) =
          (s.data (s.ibuf inode)).wr32 (s.idesc inode + 4) x := update_self ..
      have hi : i < s.idesc inode + 4 ∨ s.idesc inode + 4 + 4 ≤ i := by omega
      rw [hset]
      refine BitVec.eq_of_toNat_eq ?_
      exact rd8_wr32_ne hi
    · rfl
  · rw [grow_data hb]

theorem grow_fields (hx : x < 2 ^ 32) : (s.grow inode x).size inode = max (s.size inode) x ∧
    (s.grow inode x).mode inode = s.mode inode := by
  unfold State.grow
  split_ifs with h
  · have hset : ((s.setSize inode x).dirtyInode inode).data (s.ibuf inode) =
        (s.data (s.ibuf inode)).wr32 (s.idesc inode + 4) x := update_self ..
    have hsize : ((s.setSize inode x).dirtyInode inode).size inode =
        ((s.data (s.ibuf inode)).wr32 (s.idesc inode + 4) x).rd32 (s.idesc inode + 4) :=
      congrArg (fun d : Block => d.rd32 (s.idesc inode + 4)) hset
    have hmode : ((s.setSize inode x).dirtyInode inode).mode inode =
        ((s.data (s.ibuf inode)).wr32 (s.idesc inode + 4) x).rd16 (s.idesc inode) :=
      congrArg (fun d : Block => d.rd16 (s.idesc inode)) hset
    rw [hsize, hmode, rd32_wr32, rd16_wr32_ne (by omega), Nat.mod_eq_of_lt hx]
    exact ⟨(Nat.max_eq_right (Nat.le_of_lt h)).symm, rfl⟩
  · exact ⟨(Nat.max_eq_left (Nat.le_of_not_lt h)).symm, rfl⟩

end Grow

section Write

/-- A block that has been read to be written. -/
def State.opened (s : State) (b : ℕ) : State := { s with cache := s.cache.hold b }.setDirty b

/-- The state before `brelse` in one turn: the block is held, dirty and filled. -/
def State.filled (s : State) (inode b x start : ℕ) (bytes : List Byte) : State :=
  let t := (s.opened b).grow inode x
  t.setData b ((t.data b).write start bytes)

/-- Byte `p` of the file. -/
def State.byte (s : State) (m : ℕ → ℕ) (p : ℕ) : Byte := s.data (m (p / BLOCK_SIZE)) (p % BLOCK_SIZE)

/-- From `s` to `t` the bytes have been written to the file at `n`, and no others. -/
structure Wrote (inode : ℕ) (D : Set ℕ) (m : ℕ → ℕ) (n : ℕ) (bytes : List Byte) (s t : State) :
    Prop where
  later : Later inode D m s t
  mode : t.mode inode = s.mode inode
  size : t.size inode = if bytes = [] then s.size inode else max (s.size inode) (n + bytes.length)
  mapped : ∀ p, n ≤ p → p < n + bytes.length → Mapped inode m t (p / BLOCK_SIZE)
  byte : ∀ p, p / BLOCK_SIZE ∈ D → t.byte m p =
    if n ≤ p ∧ p < n + bytes.length then bytes.getD (p - n) 0 else s.byte m p

theorem Wrote.nil (s : State) : Wrote inode D m n [] s s where
  later := .here
  mode := rfl
  size := rfl
  mapped p hp hlt := absurd hlt (by simpa using hp)
  byte p _ := (if_neg (by simp only [List.length_nil]; omega)).symm

/-- Two writes one after the other are one. -/
theorem Wrote.append {xs ys : List Byte} (hm : MapsTo inode D m s)
    (hD : ∀ p, n ≤ p → p < n + xs.length → p / BLOCK_SIZE ∈ D)
    (h : Wrote inode D m n xs s t) (h' : Wrote inode D m (n + xs.length) ys t u) :
    Wrote inode D m n (xs ++ ys) s u where
  later := h.later.trans h'.later
  mode := h'.mode.trans h.mode
  size := by
    rw [h'.size, h.size, List.length_append]
    cases xs with
    | nil => simp
    | cons x xs =>
      cases ys with
      | nil => simp
      | cons y ys =>
        simp only [List.cons_append, reduceCtorEq, if_false]
        omega
  mapped p hp hlt := by
    rw [List.length_append] at hlt
    by_cases hx : p < n + xs.length
    · exact hm.again t u h.later h'.later _ (hD p hp hx) (h.mapped p hp hx)
    · exact h'.mapped p (by omega) (by omega)
  byte p hp := by
    rw [h'.byte p hp, h.byte p hp, List.length_append]
    obtain hlow | hhigh := Nat.lt_or_ge p n
    · rw [if_neg (by omega), if_neg (by omega), if_neg (by omega)]
    obtain hx | hy := Nat.lt_or_ge p (n + xs.length)
    · rw [if_neg (by omega), if_pos ⟨hhigh, hx⟩, if_pos (by omega), List.getD_append _ _ _ _ (by omega)]
    · rw [if_neg (c := n ≤ p ∧ p < n + xs.length) (by omega), List.getD_append_right _ _ _ _ (by omega),
        ← Nat.sub_sub]
      split_ifs <;> first | rfl | omega

/-- A store that leaves the file as it is. -/
theorem Wrote.store (hm : MapsTo inode D m s) (h : Wrote inode D m n bytes s t)
    (hs : Stored inode D m t u) (hmode : u.mode inode = t.mode inode)
    (hsize : u.size inode = t.size inode) (hdata : ∀ k ∈ D, u.data (m k) = t.data (m k))
    (hD : ∀ p, n ≤ p → p < n + bytes.length → p / BLOCK_SIZE ∈ D) :
    Wrote inode D m n bytes s u where
  later := .store h.later hs
  mode := hmode.trans h.mode
  size := hsize.trans h.size
  mapped p hp hlt := hm.again t u h.later (.store .here hs) _ (hD p hp hlt) (h.mapped p hp hlt)
  byte p hp := by
    rw [← h.byte p hp]
    unfold State.byte
    rw [hdata _ hp]

/-- `inode->desc->mtime = v` and `bwrite(inode->buf)`. -/
def State.stamped (s : State) (inode v : ℕ) : State := (s.setMtime inode v).cleaned (s.ibuf inode)

theorem stamped_self (v : ℕ) : (s.stamped inode v).data (s.ibuf inode) =
    (s.data (s.ibuf inode)).wr32 (s.idesc inode + 8) v := by
  unfold State.stamped
  rw [data_cleaned]
  exact update_self ..

theorem stamped_other {b : ℕ} (v : ℕ) (hb : b ≠ s.ibuf inode) :
    (s.stamped inode v).data b = s.data b := by
  unfold State.stamped
  rw [data_cleaned]
  exact update_of_ne hb ..

theorem stored_stamped (v : ℕ) : Stored inode D m s (s.stamped inode v) := by
  refine ⟨⟨rfl, rfl, rfl, rfl, rfl, rfl, rfl⟩, ⟨(s.inodeTable inode).atime, ?_⟩, fun b i _ h => ?_⟩
  · exact (update_eq_self inode _).symm
  obtain rfl | hb := eq_or_ne b (s.ibuf inode)
  · rw [stamped_self]
    refine BitVec.eq_of_toNat_eq ?_
    exact rd8_wr32_ne (by omega)
  · rw [stamped_other v hb]

theorem stamped_fields (v : ℕ) : (s.stamped inode v).size inode = s.size inode ∧
    (s.stamped inode v).mode inode = s.mode inode := by
  have hsize : (s.stamped inode v).size inode =
      ((s.data (s.ibuf inode)).wr32 (s.idesc inode + 8) v).rd32 (s.idesc inode + 4) :=
    congrArg (fun d : Block => d.rd32 (s.idesc inode + 4)) (stamped_self v)
  have hmode : (s.stamped inode v).mode inode =
      ((s.data (s.ibuf inode)).wr32 (s.idesc inode + 8) v).rd16 (s.idesc inode) :=
    congrArg (fun d : Block => d.rd16 (s.idesc inode)) (stamped_self v)
  rw [hsize, hmode, rd32_wr32_ne (by omega), rd16_wr32_ne (by omega)]
  exact ⟨rfl, rfl⟩

end Write

section Read

end Read

end Onix.Fs
