import Onix.Sanity.MemoryOps
import Onix.Spec.Arena

/-! Where the blocks of the arenas lie, whom each page belongs to, and how the headers, the
free lists and `kernel_map` go together. -/

namespace Onix.Arena

open Function Code Outcome Bytes
open Memory (PAGE_SIZE idx allocKpage freeKpage pageAddr resetPages)
open Mutex (ONIX_MAGIC)

variable {s s' : State} {init : BitmapT} {p q n d i j a b count size : ℕ}

section Addresses

/-- Block `i` of the page `p`, in blocks of descriptor `d`. -/
def blockAddr (p d i : ℕ) : ℕ := p * PAGE_SIZE + ARENA_SIZE + i * blockSize d

theorem blockSize_ge (d : ℕ) : 16 ≤ blockSize d := by
  have := Nat.one_le_two_pow (n := d)
  unfold blockSize
  omega

theorem block_fits (hi : i < totalBlock d) : i * blockSize d + blockSize d ≤ 4080 := by
  have hpos : 0 < blockSize d := Nat.lt_of_lt_of_le (by omega) (blockSize_ge d)
  have h : (i + 1) * blockSize d ≤ PAGE_SIZE - ARENA_SIZE := (Nat.le_div_iff_mul_le hpos).mp hi
  rw [Nat.succ_mul] at h
  exact h

/-- The block that an address lies in. -/
theorem of_blockAddr (hi : i < totalBlock d) (h : blockAddr p d i ≤ a)
    (h' : a < blockAddr p d i + blockSize d) :
    a / PAGE_SIZE = p ∧ 16 ≤ a % PAGE_SIZE ∧ (a % PAGE_SIZE - 16) / blockSize d = i := by
  have hfits := block_fits hi
  have hpos := blockSize_ge d
  unfold blockAddr ARENA_SIZE at h h'
  unfold PAGE_SIZE at *
  obtain ⟨r, hr⟩ := Nat.exists_eq_add_of_le h
  have hdiv : a / 4096 = p := by omega
  have hmod : a % 4096 - 16 = r + i * blockSize d := by omega
  refine ⟨hdiv, by omega, ?_⟩
  rw [hmod, Nat.add_mul_div_right _ _ (by omega), Nat.div_eq_of_lt (by omega), Nat.zero_add]

theorem blockAddr_self (hi : i < totalBlock d) :
    idx (blockAddr p d i) = p ∧ getBlockArena (blockAddr p d i) = p * PAGE_SIZE := by
  obtain ⟨h, -⟩ := of_blockAddr hi (Nat.le_refl _)
    (Nat.lt_add_of_pos_right (Nat.lt_of_lt_of_le (by omega) (blockSize_ge d)) : blockAddr p d i < _)
  have hmod := Nat.div_add_mod (blockAddr p d i) PAGE_SIZE
  refine ⟨h, ?_⟩
  unfold getBlockArena
  rw [h, Nat.mul_comm] at hmod
  omega

theorem blockAddr_inj (hi : i < totalBlock d) (hj : j < totalBlock d)
    (h : blockAddr p d i = blockAddr q d j) : p = q ∧ i = j := by
  have hpos : 0 < blockSize d := Nat.lt_of_lt_of_le (by omega) (blockSize_ge d)
  obtain ⟨h₁, -, h₂⟩ := of_blockAddr hi (Nat.le_refl _)
    (Nat.lt_add_of_pos_right hpos : blockAddr p d i < _)
  obtain ⟨h₃, -, h₄⟩ := of_blockAddr hj (Nat.le_refl _)
    (Nat.lt_add_of_pos_right hpos : blockAddr q d j < _)
  rw [h] at h₁ h₂
  exact ⟨h₁.symm.trans h₃, h₂.symm.trans h₄⟩

/-- How many pages `kmalloc` takes for more than 1024 bytes. -/
def pages (size : ℕ) : ℕ := (size + 16 + 4095) / 4096

theorem divRoundUp_eq (h : size ≤ 2 ^ 31) :
    divRoundUp ((size + ARENA_SIZE) % 2 ^ 32) PAGE_SIZE = pages size := by
  unfold divRoundUp pages ARENA_SIZE PAGE_SIZE
  omega

theorem descFor_lt (size : ℕ) : descFor size < DESC_COUNT := by
  unfold descFor
  cases h : (List.range DESC_COUNT).find? fun i => decide (size ≤ blockSize i) with
  | none => decide
  | some i => exact List.mem_range.mp (List.mem_of_find?_eq_some h)

theorem descFor_le (h : size ≤ 1024) : size ≤ blockSize (descFor size) := by
  unfold descFor
  cases hf : (List.range DESC_COUNT).find? fun i => decide (size ≤ blockSize i) with
  | none =>
    have hsix := List.find?_eq_none.mp hf 6 (List.mem_range.mpr (by decide))
    exact absurd (decide_eq_true h) hsix
  | some i => simpa using List.find?_some hf

end Addresses

section Pages

/-- A page that `kmalloc` has taken: cut into blocks, or part of the memory at `q`. -/
inductive Owner where
  | small (d : ℕ)
  | large (q : ℕ)
  deriving DecidableEq

variable {owner : ℕ → Option Owner}

/-- Block `i` of page `p`, which is cut into blocks of descriptor `d`, lies at `b`. -/
structure IsBlock (owner : ℕ → Option Owner) (p d i b : ℕ) : Prop where
  owner : owner p = some (.small d)
  lt : i < totalBlock d
  eq : b = blockAddr p d i

structure Layout (init : BitmapT) (owner : ℕ → Option Owner) (s : State) : Prop where
  map : s.m.kernelMap = { init with bits := s.m.kernelMap.bits }
  covers : 480 ≤ init.size ∧ init.length = 480 ∧ init.offset = 256
  bit : ∀ k, s.m.kernelMap.bits.bit k = (init.bits.bit k || (owner (k + 256)).isSome)
  fresh : ∀ p, (owner p).isSome → 256 ≤ p ∧ p < 4096 ∧ init.bits.bit (p - 256) = false
  small : ∀ p d, owner p = some (.small d) → d < DESC_COUNT ∧
    s.arena p = ⟨some d, (s.freeList d).countP fun b => idx b = p, 0, ONIX_MAGIC⟩
  large : ∀ q n, (q, n) ∈ s.live → 1024 < n → q % PAGE_SIZE = 16 ∧
    (∀ p, idx q ≤ p → p < idx q + pages n → owner p = some (.large q)) ∧
    s.arena (idx q) = ⟨none, pages n, 1, ONIX_MAGIC⟩
  owned : ∀ p q, owner p = some (.large q) →
    ∃ n, (q, n) ∈ s.live ∧ 1024 < n ∧ idx q ≤ p ∧ p < idx q + pages n
  block : ∀ q n, (q, n) ∈ s.live → n ≤ 1024 → ∃ p i, IsBlock owner p (descFor n) i q
  free : ∀ d b, b ∈ s.freeList d → (∃ p i, IsBlock owner p d i b) ∧ ∀ n, (b, n) ∉ s.live
  all : ∀ p d i b, IsBlock owner p d i b → b ∈ s.freeList d ∨ ∃ n, (b, n) ∈ s.live
  lists : ∀ d, (s.freeList d).Nodup
  live : (s.live.map Prod.fst).Nodup

theorem Layout.fits (h : Layout init owner s) : s.m.kernelMap.Fits ∧ s.m.kernelMap.offset = 256 ∧
    s.m.kernelMap.length = 480 := by
  obtain ⟨h₁, h₂, h₃⟩ := h.covers
  rw [h.map]
  refine ⟨⟨?_, ?_⟩, h₃, h₂⟩
  · dsimp only
    omega
  · dsimp only
    omega

/-- The last byte of a block is in its page. -/
theorem IsBlock.bounds (h : IsBlock owner p d i b) :
    p * PAGE_SIZE + 16 ≤ b ∧ b + blockSize d ≤ (p + 1) * PAGE_SIZE := by
  have := block_fits h.lt
  rw [h.eq]
  unfold blockAddr ARENA_SIZE PAGE_SIZE
  constructor <;> omega

theorem IsBlock.page (h : IsBlock owner p d i b) : idx b = p ∧ getBlockArena b = p * PAGE_SIZE := by
  rw [h.eq]
  exact blockAddr_self h.lt

/-- Two blocks with an address in common are one. -/
theorem IsBlock.unique {p' d' i' b' : ℕ} (h : IsBlock owner p d i b)
    (h' : IsBlock owner p' d' i' b') (ha : b ≤ a) (ha' : a < b + blockSize d) (hb : b' ≤ a)
    (hb' : a < b' + blockSize d') : b = b' ∧ d = d' := by
  obtain rfl := h.eq
  obtain rfl := h'.eq
  obtain ⟨h₁, -, h₂⟩ := of_blockAddr h.lt ha ha'
  obtain ⟨h₃, -, h₄⟩ := of_blockAddr h'.lt hb hb'
  obtain rfl : p = p' := h₁.symm.trans h₃
  have hd := h.owner.symm.trans h'.owner
  obtain rfl : d = d' := by simpa using hd
  obtain rfl : i = i' := h₂.symm.trans h₄
  exact ⟨rfl, rfl⟩

end Pages

section KernelPages

variable {owner : ℕ → Option Owner} {D lo hi : ℕ}

/-- The pages from `D` on, `count` of them, are nobody's. -/
def Unowned (init : BitmapT) (owner : ℕ → Option Owner) (D count : ℕ) : Prop :=
  256 ≤ D ∧ D + count ≤ 4096 ∧
    ∀ p, D ≤ p → p < D + count → owner p = none ∧ init.bits.bit (p - 256) = false

theorem alloc_all (h : Layout init owner s) (hc : 0 < count) :
    All (fun r => ∃ D bits, r = (D * PAGE_SIZE, { s with m := s.m.setKernelBits bits }) ∧
      Unowned init owner D count ∧ ∀ k, bits.bit k =
        (init.bits.bit k || ((owner (k + 256)).isSome || decide (D ≤ k + 256 ∧ k + 256 < D + count))))
      (inMemory (allocKpage count) s) := by
  unfold inMemory
  refine all_andThen ((Memory.allocKpage_spec h.fits hc).mono ?_)
  rintro ⟨vaddr, m⟩ ⟨D, bits, hD, hle, he, hclear, hbits⟩
  obtain ⟨rfl, rfl⟩ := Prod.mk.inj he
  refine ⟨D, bits, ?_, ⟨hD, hle, fun p hp hlt => ?_⟩, fun k => ?_⟩
  · rw [Memory.pageAddr_eq (by omega)]
  · have := hclear (p - 256) (by omega) (by omega)
    rw [h.bit, Nat.sub_add_cancel (by omega), Bool.or_eq_false_iff, Option.isSome_eq_false_iff,
      Option.isNone_iff_eq_none] at this
    exact ⟨this.2, this.1⟩
  · rw [hbits, h.bit, ← Bool.or_assoc]
    by_cases hk : D ≤ k + 256 ∧ k + 256 < D + count
    · rw [if_pos (by omega)]
      simp [hk]
    · rw [if_neg (by omega)]
      simp only [hk, decide_false, Bool.or_false]

/-- A store that keeps off the nodes of the free lists. -/
theorem store_eq (f : ℕ → ArenaT)
    (hsafe : ∀ d b, b ∈ s.freeList d → hi ≤ b ∨ b + NODE_SIZE ≤ lo) :
    store lo hi f s = .next ((), { s with
      arena := fun p =>
        if p * PAGE_SIZE < hi ∧ lo < p * PAGE_SIZE + ARENA_SIZE then f p else s.arena p }) := by
  unfold store
  rw [peek_bind, assert_bind]
  · rfl
  · rw [Bool.not_eq_true']
    apply List.any_eq_false.mpr
    intro d _ hany
    obtain ⟨b, hb, hlt⟩ := List.any_eq_true.mp hany
    simp only [Bool.and_eq_true, decide_eq_true_eq] at hlt
    have := hsafe d b hb
    omega

variable (s') in
/-- The pages just taken are cleared. -/
theorem clearPages_eq (h : Layout init owner s) (hD : Unowned init owner D count)
    (hlists : s'.freeList = s.freeList) :
    clearPages (D * PAGE_SIZE) count s' = .next ((), { s' with
      arena := fun p => if D ≤ p ∧ p < D + count then zeroArena else s'.arena p }) := by
  obtain ⟨hlo, hhi, hnone⟩ := hD
  have hbytes : count * PAGE_SIZE % 2 ^ 32 = count * PAGE_SIZE := by
    unfold PAGE_SIZE
    omega
  unfold clearPages
  rw [hbytes, store_eq]
  · congr 3
    funext p
    congr 1
    unfold PAGE_SIZE ARENA_SIZE
    apply propext
    omega
  · intro d b hb
    rw [hlists] at hb
    obtain ⟨p, i, hblock⟩ := (h.free d b hb).1
    obtain ⟨h₁, h₂⟩ := hblock.bounds
    have hsize := blockSize_ge d
    have hp : ¬ (D ≤ p ∧ p < D + count) := by
      intro hp
      have := (hnone p hp.1 hp.2).1
      simp [hblock.owner] at this
    unfold PAGE_SIZE NODE_SIZE at *
    omega

theorem resetPages_eq {map : BitmapT} (hf : map.Fits) (index n i : ℕ) (hlo : map.offset ≤ index + i)
    (hhi : index + i + n ≤ map.offset + map.length * 8)
    (hset : ∀ k, index + i ≤ k + map.offset → k + map.offset < index + i + n →
      map.bits.bit k = true) :
    ∃ bits, resetPages map index n i = some { map with bits := bits } ∧
      ∀ k, bits.bit k =
        if index + i ≤ k + map.offset ∧ k + map.offset < index + i + n then false
        else map.bits.bit k := by
  induction n generalizing map i with
  | zero => exact ⟨map.bits, rfl, fun k => by rw [if_neg (by omega)]⟩
  | succ n ih =>
    have hidx : index + i = map.offset + (index + i - map.offset) := by omega
    have hlt : index + i - map.offset < map.length * 8 := by omega
    have htest : bitmapTest map (index + i) = some true := by
      rw [hidx, bitmapTest_eq hf hlt, hset _ (by omega) (by omega)]
    have hnext : bitmapSet map (index + i) false =
        some { map with bits := map.bits.setBit (index + i - map.offset) false } := by
      rw [hidx, bitmapSet_eq hf hlt, ← hidx]
    unfold resetPages
    rw [htest]
    dsimp only
    rw [hnext]
    dsimp only
    have hf' : BitmapT.Fits { map with bits := map.bits.setBit (index + i - map.offset) false } :=
      ⟨hf.size, hf.index⟩
    obtain ⟨bits, hbits, hbit⟩ := ih hf' (i + 1) (by dsimp only; omega) (by dsimp only; omega)
      fun k hk hk' => by
        dsimp only at hk hk' ⊢
        rw [bit_setBit, if_neg (by omega)]
        exact hset k (by omega) (by omega)
    refine ⟨bits, hbits, fun k => ?_⟩
    rw [hbit k]
    dsimp only
    rw [bit_setBit]
    split_ifs <;> first | rfl | omega

variable (s') in
/-- Pages that somebody owns can be given back. -/
theorem freeKpage_eq (h : Layout init owner s) (hc : 0 < count)
    (hD : ∀ p, D ≤ p → p < D + count → (owner p).isSome) (hm : s'.m = s.m) :
    ∃ bits, inMemory (freeKpage (D * PAGE_SIZE) count) s' =
        .next ((), { s' with m := s'.m.setKernelBits bits }) ∧
      ∀ k, bits.bit k =
        if D ≤ k + 256 ∧ k + 256 < D + count then false else s.m.kernelMap.bits.bit k := by
  obtain ⟨hf, hoff, hlen⟩ := h.fits
  have hlow := h.fresh D (hD D (Nat.le_refl D) (by omega))
  have hhigh := h.fresh (D + count - 1) (hD _ (by omega) (by omega))
  have hidx : idx (D * PAGE_SIZE) = D := by
    unfold idx PAGE_SIZE
    omega
  obtain ⟨bits, hbits, hbit⟩ := resetPages_eq hf D count 0 (by omega) (by omega) fun k hk hk' => by
    rw [h.bit, hD (k + 256) (by omega) (by omega), Bool.or_true]
  refine ⟨bits, ?_, fun k => ?_⟩
  · unfold inMemory freeKpage
    rw [hm, assert_bind (decide_eq_true (Nat.mul_mod_left _ _)), assert_bind (decide_eq_true hc),
      peek_bind, hidx]
    dsimp only [id]
    rw [lift_bind hbits]
    rfl
  · rw [hbit, hoff]
    rfl

end KernelPages

end Onix.Arena
