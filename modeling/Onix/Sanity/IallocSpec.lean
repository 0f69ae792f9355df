import Onix.Sanity.BallocSpec

/-! What `ialloc` and `ifree` return and change. They give `bitmap_make` the
length of a bitmap block in bits where it takes bytes, so nothing stops a search
at the end of the buffer. -/

namespace Onix

open Bytes

variable {map : BitmapT} {n k : ℕ}

/-- The search for one 0 from bit `j`, where bit `k` is the first one. -/
theorem scanLoop_one (hs : map.size ≤ map.length) (hi : map.offset + map.length * 8 < 2 ^ 32)
    (hk : map.bits.FirstZero (map.size * 8) k) (m j : ℕ) (hm : j + m = map.length * 8)
    (hj : j ≤ k) : scanLoop map 1 m j 0 = some (some k, 1) := by
  have hlt := hk.lt
  induction m generalizing j with
  | zero => omega
  | succ m ih =>
    have htest : bitmapTest map ((map.offset + j) % 2 ^ 32) = some (map.bits.bit j) := by
      rw [Nat.mod_eq_of_lt (by omega)]
      unfold bitmapTest
      rw [if_neg (by omega)]
      simp only [Nat.add_sub_cancel_left]
      rw [if_neg (by omega)]
    rw [scanLoop, htest]
    rcases Nat.lt_or_eq_of_le hj with hjk | rfl
    · rw [hk.full j hjk]
      exact ih (j + 1) (by omega) (by omega)
    · rw [hk.zero]
      simp

/-- With no 0 in the object the search runs over its end. -/
theorem scanLoop_over (hs : map.size < map.length) (hi : map.offset + map.length * 8 < 2 ^ 32)
    (hf : map.bits.Full (map.size * 8)) (m j : ℕ) (hm : j + m = map.length * 8)
    (hj : j ≤ map.size * 8) : scanLoop map 1 m j 0 = none := by
  induction m generalizing j with
  | zero => omega
  | succ m ih =>
    rw [scanLoop, Nat.mod_eq_of_lt (by omega)]
    unfold bitmapTest
    rw [if_neg (by omega)]
    simp only [Nat.add_sub_cancel_left]
    rcases Nat.lt_or_eq_of_le hj with hlt | rfl
    · rw [if_neg (by omega), hf j hlt]
      exact ih (j + 1) (by omega) (by omega)
    · rw [if_pos (by omega)]

namespace Fs

open Function Prog

variable {s s₁ : State} {n i j k b c z : ℕ}

/-- The bitmap that `ialloc` and `ifree` make of inode bitmap block `i`. -/
def imap (d : Block) (i : ℕ) : BitmapT := bitmapMake d BLOCK_SIZE BLOCK_BITS (imapOffset i)

theorem imap_index (d : Block) (hi : i < IMAP_NR) :
    (imap d i).offset + (imap d i).length * 8 < 2 ^ 32 := by
  unfold IMAP_NR at hi
  unfold imap bitmapMake imapOffset BLOCK_BITS BLOCK_SIZE
  dsimp only
  omega

theorem imapScan_one (d : Block) (hi : i < IMAP_NR) (hk : d.FirstZero BLOCK_BITS k) :
    bitmapScan (imap d i) 1 = some (i * BLOCK_BITS + k, imap (d.setBit k true) i) := by
  have hlt := hk.lt
  have hindex := imap_index d hi
  have hk' : (imap d i).bits.FirstZero ((imap d i).size * 8) k := hk
  have hset : bitmapSet (imap d i) ((imapOffset i + k) % 2 ^ 32) true =
      some (imap (d.setBit k true) i) := by
    unfold imap bitmapMake at hindex
    dsimp only at hindex
    rw [Nat.mod_eq_of_lt (by omega)]
    unfold bitmapSet imap bitmapMake
    dsimp only
    rw [if_neg (by omega), if_neg (by unfold BLOCK_BITS at hlt; omega), Nat.add_sub_cancel_left]
  have hscan := scanLoop_one (show BLOCK_SIZE ≤ BLOCK_BITS by decide) hindex hk'
    ((imap d i).length * 8) 0 (Nat.zero_add _) (Nat.zero_le k)
  unfold bitmapScan
  rw [Nat.mod_eq_of_lt (by omega), hscan]
  dsimp only
  rw [setLoop]
  rw [show (imap d i).offset = imapOffset i from rfl, hset]
  simp only [setLoop, Option.map_some, Option.some.injEq, Prod.mk.injEq, and_true]
  have : imapOffset i = i * BLOCK_BITS := rfl
  unfold imap bitmapMake at hindex
  dsimp only at hindex
  show (k + imapOffset i) % 2 ^ 32 = i * BLOCK_BITS + k
  rw [Nat.mod_eq_of_lt (by omega), this, Nat.add_comm]

theorem imapScan_full (d : Block) (hi : i < IMAP_NR) (hf : d.Full BLOCK_BITS) :
    bitmapScan (imap d i) 1 = none := by
  have hindex := imap_index d hi
  have hf' : (imap d i).bits.Full ((imap d i).size * 8) := hf
  have hscan := scanLoop_over (show BLOCK_SIZE < BLOCK_BITS by decide) hindex hf'
    ((imap d i).length * 8) 0 (Nat.zero_add _) (Nat.zero_le _)
  unfold bitmapScan
  rw [Nat.mod_eq_of_lt (by omega), hscan]

theorem ialloc_one (hz : s.sb.imaps 0 = some z) (hk : (s.data z).FirstZero BLOCK_BITS k) :
    ialloc s.dev s =
      if k < s.sb.desc.inodes then some (k, s.wrote z ((s.data z).setBit k true)) else none := by
  have hscan : bitmapScan (bitmapMake (s.data z) BLOCK_SIZE BLOCK_BITS (imapOffset 0)) 1 =
      some (k, imap ((s.data z).setBit k true) 0) := by
    have := imapScan_one (i := 0) (s.data z) (by decide) hk
    rwa [Nat.zero_mul, Nat.zero_add] at this
  have hne : k ≠ EOF := by
    have := hk.lt
    unfold BLOCK_BITS BLOCK_SIZE at this
    unfold EOF
    omega
  unfold ialloc getSuper
  simp only [bind_assoc, peek_bind]
  rw [assert_bind (by simp)]
  simp only [peek_bind]
  rw [show IMAP_NR = 7 + 1 from rfl, scanMaps, hz]
  dsimp only
  simp only [bind_assoc, peek_bind]
  rw [lift_bind hscan]
  dsimp only
  simp only [poke_bind]
  rw [if_pos hne]
  by_cases hlt : k < s.sb.desc.inodes
  · rw [if_pos hlt]
    simp only [bind_assoc]
    rw [assert_bind (by simpa using hlt)]
    rfl
  · rw [if_neg hlt]
    simp only [bind_assoc]
    exact assert_bind_none (by simpa using hlt)

theorem ialloc_over (hz : s.sb.imaps 0 = some z) (hf : (s.data z).Full BLOCK_BITS) :
    ialloc s.dev s = none := by
  have hscan : bitmapScan (bitmapMake (s.data z) BLOCK_SIZE BLOCK_BITS (imapOffset 0)) 1 = none :=
    imapScan_full (s.data z) (by decide) hf
  unfold ialloc getSuper
  simp only [bind_assoc, peek_bind]
  rw [assert_bind (by simp)]
  simp only [peek_bind]
  rw [show IMAP_NR = 7 + 1 from rfl, scanMaps, hz]
  dsimp only
  simp only [bind_assoc, peek_bind]
  exact bind_of_none (by rw [hscan]; rfl)

/-- `ifree` comes to bitmap block `(b - 1) / BLOCK_BITS`. -/
theorem ifree_reach (hb : b < s.sb.desc.inodes) (hlt : (b - 1) / BLOCK_BITS < IMAP_NR) :
    ∃ m, ifree s.dev b s =
      (clearMaps s.sb.imaps BLOCK_BITS imapOffset b (m + 1) ((b - 1) / BLOCK_BITS) >>= bwrite) s := by
  obtain ⟨m, hm⟩ : ∃ m, IMAP_NR - (b - 1) / BLOCK_BITS = m + 1 :=
    ⟨IMAP_NR - (b - 1) / BLOCK_BITS - 1, by omega⟩
  refine ⟨m, ?_⟩
  unfold ifree getSuper
  simp only [bind_assoc, peek_bind]
  rw [assert_bind (by simp)]
  simp only [peek_bind]
  rw [assert_bind (by simpa using hb),
    clearMaps_skip s.sb.imaps BLOCK_BITS imapOffset IMAP_NR (Nat.zero_add _) (Nat.zero_le _) hlt]
  exact congrArg (fun m => (clearMaps s.sb.imaps BLOCK_BITS imapOffset b m _ >>= bwrite) s) hm

theorem imapOffset_eq (b : ℕ) :
    imapOffset ((b - 1) / BLOCK_BITS) ≤ b ∧
      (b - imapOffset ((b - 1) / BLOCK_BITS) < BLOCK_BITS ↔
        (b - 1) / BLOCK_BITS = b / BLOCK_BITS) := by
  unfold imapOffset BLOCK_BITS BLOCK_SIZE
  omega

/-- `ifree` of a number that is the last bit's successor in its bitmap block
tests a bit behind the buffer. -/
theorem ifree_over (hb : b < s.sb.desc.inodes) (hlt : (b - 1) / BLOCK_BITS < IMAP_NR)
    (hne : (b - 1) / BLOCK_BITS ≠ b / BLOCK_BITS) : ifree s.dev b s = none := by
  obtain ⟨m, hm⟩ := ifree_reach hb hlt
  obtain ⟨hle, hin⟩ := imapOffset_eq b
  have hout : ¬ b - imapOffset ((b - 1) / BLOCK_BITS) < BLOCK_BITS := fun h => hne (hin.mp h)
  rw [hm, clearMaps, if_neg (not_skip b)]
  cases hz : s.sb.imaps ((b - 1) / BLOCK_BITS) with
  | none => exact bind_of_none rfl
  | some z =>
    have htest : bitmapTest (bitmapMake (s.data z) BLOCK_SIZE BLOCK_BITS
        (imapOffset ((b - 1) / BLOCK_BITS))) b = none := by
      unfold bitmapTest bitmapMake
      dsimp only
      rw [if_neg (by omega), if_pos (Or.inr ?_)]
      have : BLOCK_BITS = BLOCK_SIZE * 8 := rfl
      omega
    dsimp only
    refine bind_of_none ?_
    rw [peek_bind]
    exact bind_of_none (by rw [htest]; rfl)

theorem ifree_eq (hb : b < s.sb.desc.inodes) (hlt : b / BLOCK_BITS < IMAP_NR)
    (he : (b - 1) / BLOCK_BITS = b / BLOCK_BITS) (hz : s.sb.imaps (b / BLOCK_BITS) = some z)
    (hbit : (s.data z).bit (b % BLOCK_BITS) = true) :
    ifree s.dev b s = some ((), s.wrote z ((s.data z).setBit (b % BLOCK_BITS) false)) := by
  obtain ⟨m, hm⟩ := ifree_reach hb (by rw [he]; exact hlt)
  have hoff : b - imapOffset (b / BLOCK_BITS) = b % BLOCK_BITS := by
    unfold imapOffset BLOCK_BITS BLOCK_SIZE
    omega
  have hle : imapOffset (b / BLOCK_BITS) ≤ b := Nat.div_mul_le_self b BLOCK_BITS
  have hmod : b % BLOCK_BITS < BLOCK_BITS := Nat.mod_lt _ (by decide)
  have hsize : BLOCK_SIZE < BLOCK_BITS := by decide
  have htest : bitmapTest (bitmapMake (s.data z) BLOCK_SIZE BLOCK_BITS
      (imapOffset (b / BLOCK_BITS))) b = some true := by
    unfold bitmapTest bitmapMake
    dsimp only
    rw [if_neg (by omega), hoff, if_neg (by unfold BLOCK_BITS at *; omega), hbit]
  have hset : bitmapSet (bitmapMake (s.data z) BLOCK_SIZE BLOCK_BITS
      (imapOffset (b / BLOCK_BITS))) b false =
      some (imap ((s.data z).setBit (b % BLOCK_BITS) false) (b / BLOCK_BITS)) := by
    unfold bitmapSet bitmapMake
    dsimp only
    rw [if_neg (by omega), hoff, if_neg (by unfold BLOCK_BITS at *; omega)]
    rfl
  rw [hm, clearMaps, if_neg (not_skip b), he, hz]
  dsimp only
  simp only [bind_assoc, peek_bind]
  rw [lift_bind htest, assert_bind rfl, lift_bind hset]
  rfl

/-- A number that `ifree` does not take. -/
theorem ifree_range (hb : ¬ b < s.sb.desc.inodes) : ifree s.dev b s = none := by
  unfold ifree getSuper
  simp only [bind_assoc, peek_bind]
  rw [assert_bind (by simp)]
  simp only [peek_bind]
  exact assert_bind_none (by simpa using hb)

end Fs

end Onix
