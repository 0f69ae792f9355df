import Onix.Sanity.BmapSpec
import Onix.Sanity.FileOps

/-! The pieces that the loops of `inode_read` and `inode_write` cut: from an offset that
is not negative they stay inside their blocks, and `bmap` bounds where they end. -/

namespace Onix.Fs

open Function Prog

variable {s t : State} {inode n left fuel block : ℕ} {cs : List Chunk} {bytes : List Byte}

theorem u32_natCast (h : n < 2 ^ 32) : u32 n = n := by
  unfold u32
  omega

theorem chunk_natCast (left n : ℕ) : chunk left n =
    ⟨n, n % BLOCK_SIZE, min (BLOCK_SIZE - n % BLOCK_SIZE) left⟩ := by
  have hlt : n % BLOCK_SIZE < BLOCK_SIZE := Nat.mod_lt _ (by decide)
  have hu : u32 ((n : ℤ).tmod (BLOCK_SIZE : ℕ)) = n % BLOCK_SIZE := by
    rw [← Int.ofNat_tmod]
    exact u32_natCast (by unfold BLOCK_SIZE at *; omega)
  change Chunk.mk _ _ _ = _
  rw [hu, sub32_of_le (by omega)]

theorem chunk_block (h : n / BLOCK_SIZE < 2 ^ 32) : (chunk left n).block = n / BLOCK_SIZE := by
  change u32 ((n : ℤ).tdiv (BLOCK_SIZE : ℕ)) = _
  rw [← Int.ofNat_tdiv]
  exact u32_natCast h

/-- The offset of the next piece is a natural number again. -/
theorem chunks_succ (h : left ≠ 0) : chunks (fuel + 1) left n =
    chunk left n :: chunks fuel (left - (chunk left n).chars) ((n + (chunk left n).chars : ℕ) : ℤ) := by
  rw [chunks, if_neg h, Nat.cast_add]

theorem chunks_zero : chunks fuel 0 n = [] := by
  cases fuel with
  | zero => rfl
  | succ fuel => exact if_pos rfl

theorem chunks_inside (c : Chunk) (hc : c ∈ chunks fuel left n) : c.Inside := by
  induction fuel generalizing left n with
  | zero => cases hc
  | succ fuel ih =>
    by_cases hl : left = 0
    · rw [hl, chunks_zero] at hc
      cases hc
    rw [chunks_succ hl] at hc
    rcases List.mem_cons.mp hc with rfl | hc
    · rw [chunk_natCast]
      have hlt : n % BLOCK_SIZE < BLOCK_SIZE := Nat.mod_lt _ (by decide)
      change n % BLOCK_SIZE + min (BLOCK_SIZE - n % BLOCK_SIZE) left ≤ BLOCK_SIZE
      omega
    · exact ih hc

/-- The pieces together are what was asked for. -/
theorem chunks_sum (h : left ≤ fuel) : ((chunks fuel left n).map Chunk.chars).sum = left := by
  induction fuel generalizing left n with
  | zero =>
    obtain rfl : left = 0 := by omega
    rfl
  | succ fuel ih =>
    by_cases hl : left = 0
    · rw [hl, chunks_zero]
      rfl
    have hlt : n % BLOCK_SIZE < BLOCK_SIZE := Nat.mod_lt _ (by decide)
    have hchars : (chunk left n).chars = min (BLOCK_SIZE - n % BLOCK_SIZE) left := by
      rw [chunk_natCast]
    rw [chunks_succ hl, List.map_cons, List.sum_cons, ih (by omega)]
    omega

/-- Where `bmap` takes every block, the last piece ends inside the largest file. -/
theorem chunks_end (hb : ∀ c ∈ chunks fuel left n, c.block < TOTAL_BLOCK) (hl : left ≤ fuel)
    (hn : n < 2 ^ 31) (h0 : left ≠ 0) : n + left ≤ TOTAL_BLOCK * BLOCK_SIZE := by
  induction fuel generalizing left n with
  | zero => omega
  | succ fuel ih =>
    have hsize : BLOCK_SIZE = 1024 := rfl
    have htotal : TOTAL_BLOCK = 262663 := rfl
    have hchars : (chunk left n).chars = min (BLOCK_SIZE - n % BLOCK_SIZE) left := by
      rw [chunk_natCast]
    have hdiv : n / BLOCK_SIZE < 2 ^ 32 := by
      rw [hsize]
      omega
    rw [chunks_succ h0] at hb
    have hfirst := hb _ (List.mem_cons_self ..)
    rw [chunk_block hdiv] at hfirst
    simp only [hsize, htotal] at hfirst hchars ih ⊢
    by_cases hlast : left - (chunk left n).chars = 0
    · omega
    · have := ih (fun c hc => hb c (List.mem_cons_of_mem _ hc)) (by omega) (by omega) hlast
      omega

theorem length_read (d : Block) (i n : ℕ) : (d.read i n).length = n := by
  simp [Bytes.read]

/-- What a returning loop of `inode_read` has read. -/
theorem readLoop_cases (h : readLoop inode cs s = some (bytes, t)) :
    (∀ c ∈ cs, c.block < TOTAL_BLOCK) ∧ bytes.length = (cs.map Chunk.chars).sum := by
  induction cs generalizing s t bytes with
  | nil =>
    simp only [readLoop, pure_apply, Option.some.injEq, Prod.mk.injEq] at h
    simp [← h.1]
  | cons c cs ih =>
    obtain ⟨nr, s₁, h₁, k₁⟩ := bind_eq_some.mp h
    obtain ⟨⟨⟩, s₂, h₂, k₂⟩ := bind_eq_some.mp k₁
    rw [peek_bind] at k₂
    obtain ⟨bf, s₃, h₃, k₃⟩ := bind_eq_some.mp k₂
    obtain ⟨⟨⟩, s₄, h₄, k₄⟩ := bind_eq_some.mp k₃
    rw [peek_bind] at k₄
    obtain ⟨⟨⟩, s₅, h₅, k₅⟩ := bind_eq_some.mp k₄
    obtain ⟨rest, s₆, h₆, k₆⟩ := bind_eq_some.mp k₅
    simp only [pure_apply, Option.some.injEq, Prod.mk.injEq] at k₆
    obtain ⟨hall, hlen⟩ := ih h₆
    refine ⟨fun c' hc' => ?_, ?_⟩
    · rcases List.mem_cons.mp hc' with rfl | hc'
      · exact bmap_block h₁
      · exact hall c' hc'
    · rw [← k₆.1, List.length_append, length_read, hlen, List.map_cons, List.sum_cons]

theorem writeLoop_blocks (h : writeLoop inode cs bytes s = some ((), t)) :
    ∀ c ∈ cs, c.block < TOTAL_BLOCK := by
  induction cs generalizing s t bytes with
  | nil => exact fun c hc => absurd hc List.not_mem_nil
  | cons c cs ih =>
    obtain ⟨⟨⟩, u, hc, hr⟩ := bind_eq_some.mp h
    obtain ⟨nr, v, hb, -⟩ := bind_eq_some.mp hc
    intro c' hc'
    rcases List.mem_cons.mp hc' with rfl | hc'
    · exact bmap_block hb
    · exact ih hr c' hc'

/-- What `inode_read` has read ends inside the largest file. -/
theorem inodeRead_end {r : Option (List Byte)} (h : inodeRead inode left n s = some (r, t))
    (hn : n < 2 ^ 31) : (r.elim 0 List.length) = 0 ∨
      n + r.elim 0 List.length ≤ TOTAL_BLOCK * BLOCK_SIZE := by
  unfold inodeRead at h
  rw [peek_bind] at h
  obtain ⟨⟨⟩, u, -, k⟩ := bind_eq_some.mp h
  rw [peek_bind] at k
  split_ifs at k with hsize
  · simp only [pure_apply, Option.some.injEq, Prod.mk.injEq] at k
    obtain ⟨rfl, -⟩ := k
    exact .inl rfl
  obtain ⟨bytes, v, hr, k⟩ := bind_eq_some.mp k
  obtain ⟨⟨⟩, w, -, k⟩ := bind_eq_some.mp k
  simp only [pure_apply, Option.some.injEq, Prod.mk.injEq] at k
  obtain ⟨rfl, -⟩ := k
  obtain ⟨hall, hlen⟩ := readLoop_cases hr
  rw [chunks_sum (Nat.le_refl _)] at hlen
  rw [Option.elim_some, hlen]
  by_cases h0 : min left (u.size inode - u32 n) = 0
  · exact .inl h0
  · exact .inr (chunks_end hall (Nat.le_refl _) hn h0)

/-- What `inode_write` has written ends inside the largest file. -/
theorem inodeWrite_end (h : inodeWrite inode bytes n s = some (left, t)) (hn : n < 2 ^ 31) :
    left = bytes.length ∧ (left = 0 ∨ n + left ≤ TOTAL_BLOCK * BLOCK_SIZE) := by
  unfold inodeWrite at h
  rw [peek_bind] at h
  obtain ⟨⟨⟩, s₁, -, k₁⟩ := bind_eq_some.mp h
  obtain ⟨⟨⟩, s₂, h₂, k₂⟩ := bind_eq_some.mp k₁
  obtain ⟨⟨⟩, s₃, -, k₃⟩ := bind_eq_some.mp k₂
  rw [poke_bind, peek_bind] at k₃
  obtain ⟨⟨⟩, s₄, -, k₄⟩ := bind_eq_some.mp k₃
  simp only [pure_apply, Option.some.injEq, Prod.mk.injEq] at k₄
  obtain ⟨rfl, -⟩ := k₄
  refine ⟨rfl, ?_⟩
  by_cases h0 : bytes.length = 0
  · exact .inl h0
  · exact .inr (chunks_end (writeLoop_blocks h₂) (Nat.le_refl _) hn h0)

end Onix.Fs
