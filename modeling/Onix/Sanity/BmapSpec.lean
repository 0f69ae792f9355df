import Onix.Sanity.BallocSpec
import Onix.Sanity.FsFrame

/-! One turn of the loop of `bmap`, and `bmap` on a volume with no free zone. -/

namespace Onix.Fs

open Function Prog

variable {s t u : State} {dev : ℤ} {create : Bool} {buf addr index b n r inode block : ℕ}

/-- The cell that one turn looks at. -/
def State.cell (s : State) (buf addr index : ℕ) : ℕ := (s.data buf).rd16 (addr + 2 * index)

def State.setCell (s : State) (buf addr index v : ℕ) : State :=
  (s.setData buf ((s.data buf).wr16 (addr + 2 * index) v)).setDirty buf

theorem cell_setCell (v : ℕ) : (s.setCell buf addr index v).cell buf addr index = v % 2 ^ 16 := by
  unfold State.setCell State.cell
  rw [← Bytes.rd16_wr16]
  congr 1
  exact update_self ..

theorem brelse_data {o : Option ℕ} {x : Unit} (h : brelse o s = some (x, t)) : t.data = s.data :=
  (brelse_quiet o s _ _ h).data

theorem cell_congr (h : t.data = s.data) : t.cell buf addr index = s.cell buf addr index := by
  unfold State.cell
  rw [h]

theorem bmapCell_cases (h : bmapCell dev create buf addr index s = some (r, t)) :
    ((s.cell buf addr index = 0 ∧ create = true) ∧ ∃ nr u, balloc dev s = some (nr, u) ∧
      r = nr % 2 ^ 16 ∧ brelse (some buf) (u.setCell buf addr index nr) = some ((), t)) ∨
    (¬ (s.cell buf addr index = 0 ∧ create = true) ∧ r = s.cell buf addr index ∧
      brelse (some buf) s = some ((), t)) := by
  unfold bmapCell at h
  rw [peek_bind] at h
  by_cases hc : s.cell buf addr index = 0 ∧ create = true
  · have hif : (decide ((s.data buf).rd16 (addr + 2 * index) = 0) && create) = true := by
      simpa [State.cell] using hc
    rw [if_pos hif] at h
    obtain ⟨nr, u, hb, h⟩ := bind_eq_some.mp h
    rw [poke_bind] at h
    obtain ⟨⟨⟩, v, hv, h⟩ := bind_eq_some.mp h
    simp only [peek_apply, Option.some.injEq, Prod.mk.injEq] at h
    obtain ⟨rfl, rfl⟩ := h
    refine .inl ⟨hc, nr, u, hb, ?_, hv⟩
    exact (cell_congr (brelse_data hv)).trans (cell_setCell nr)
  · have hif : ¬ (decide ((s.data buf).rd16 (addr + 2 * index) = 0) && create) = true := by
      simpa [State.cell] using hc
    rw [if_neg hif] at h
    obtain ⟨⟨⟩, v, hv, h⟩ := bind_eq_some.mp h
    simp only [peek_apply, Option.some.injEq, Prod.mk.injEq] at h
    obtain ⟨rfl, rfl⟩ := h
    exact .inr ⟨hc, cell_congr (brelse_data hv), hv⟩

/-- Where the walk of `bmap` begins: `level`, `index`, what is left of the file block,
and `divider`. -/
structure Plan where
  level : ℕ
  index : ℕ
  block : ℕ
  divider : ℕ

def bmapPlan (block : ℕ) : Plan :=
  if block < DIRECT_BLOCK then ⟨0, block, block, 1⟩
  else if block - DIRECT_BLOCK < INDIRECT1_BLOCK then ⟨1, DIRECT_BLOCK, block - DIRECT_BLOCK, 1⟩
  else ⟨2, DIRECT_BLOCK + 1, block - DIRECT_BLOCK - INDIRECT1_BLOCK, BLOCK_INDEXES⟩

/-- `bmap` takes hold of the block of its inode and walks. -/
theorem bmap_eq (hb : block < TOTAL_BLOCK) : bmap inode block create s =
    bmapLoop (s.inodeTable inode).dev create (bmapPlan block).level (s.ibuf inode) (s.izone inode)
      (bmapPlan block).index (bmapPlan block).block (bmapPlan block).divider
      { s with cache := s.cache.hold (s.ibuf inode) } := by
  unfold bmap bmapPlan
  rw [assert_bind (by simpa using hb), peek_bind, peek_bind, peek_bind, poke_bind]
  by_cases h₀ : block < DIRECT_BLOCK
  · rw [if_pos h₀, if_pos h₀]
  rw [if_neg h₀, if_neg h₀]
  dsimp only
  by_cases h₁ : block - DIRECT_BLOCK < INDIRECT1_BLOCK
  · rw [if_pos h₁, if_pos h₁]
  rw [if_neg h₁, if_neg h₁]
  refine assert_bind ?_
  unfold TOTAL_BLOCK at hb
  simp only [decide_eq_true_eq]
  omega

theorem bmap_block (h : bmap inode block create s = some (r, t)) : block < TOTAL_BLOCK := by
  unfold bmap at h
  obtain ⟨⟨⟩, u, ha, -⟩ := bind_eq_some.mp h
  simpa using (assert_eq_some.mp ha).1

section NoZone

/-- No zone is free. -/
def NoZone (s : State) : Prop := ∀ i z, s.sb.zmaps i = some z → (s.data z).Full BLOCK_BITS

/-- A volume with no free zone. -/
structure Spent (s : State) (n : ℕ) : Prop where
  volume : Volume s n
  full : NoZone s

/-- Nothing of the superblock has changed, and no bit has become 0. -/
theorem Spent.of_grown (h : Spent s n) (hsb : t.sb = s.sb)
    (hbit : ∀ b k, (s.data b).bit k = true → (t.data b).bit k = true) : Spent t n := by
  obtain ⟨h, hf⟩ := h
  have hfull : NoZone t := fun i z hz k hk => hbit z k (hf i z (by rw [← hsb, hz]) k hk)
  refine ⟨⟨h.pos, h.le, fun i hi => ?_, fun i hi => ?_, fun i j z hi hj => ?_, ?_, ?_, ?_,
    fun i z k hz hk _ => hfull i z hz k hk⟩, hfull⟩
  · rw [hsb]
    exact h.loaded i hi
  · rw [hsb]
    exact h.absent i hi
  · rw [hsb] at hi hj
    exact h.distinct i j z hi hj
  · rw [hsb]
    exact h.first
  · rw [hsb]
    exact h.zones
  · rw [hsb]
    exact h.zones_lt

/-- Storing `EOF` in a cell leaves no bit 0. -/
theorem bit_wr16_EOF (d : Block) (i k : ℕ) (h : d.bit k = true) : (d.wr16 i EOF).bit k = true := by
  have hlow : BitVec.ofNat 8 EOF = 0xff#8 := rfl
  have hhigh : BitVec.ofNat 8 (EOF / 2 ^ 8) = 0xff#8 := rfl
  have hones : ∀ j < 8, (0xff#8).getLsbD j = true := by decide
  unfold Bytes.wr16 Bytes.wr8 Bytes.bit at *
  rw [hlow, hhigh]
  by_cases h₁ : k / 8 = i + 1
  · rw [h₁, update_self]
    exact hones _ (Nat.mod_lt _ (by decide))
  rw [update_of_ne h₁]
  by_cases h₀ : k / 8 = i
  · rw [h₀, update_self]
    exact hones _ (Nat.mod_lt _ (by decide))
  · rw [update_of_ne h₀]
    exact h

theorem Spent.setCell (h : Spent s n) (buf addr index : ℕ) : Spent (s.setCell buf addr index EOF) n := by
  refine h.of_grown rfl fun b k hk => ?_
  have hdata : (s.setCell buf addr index EOF).data =
      update s.data buf ((s.data buf).wr16 (addr + 2 * index) EOF) := rfl
  rw [hdata]
  by_cases hb : b = buf
  · subst hb
    rw [update_self]
    exact bit_wr16_EOF _ _ _ hk
  · rw [update_of_ne hb]
    exact hk

theorem Spent.same (h : Spent s n) (hs : t.sb = s.sb) (hd : t.data = s.data) : Spent t n :=
  h.of_grown hs fun b k hk => by rw [hd]; exact hk

theorem balloc_dev (h : balloc dev s = some (b, t)) : dev = s.dev := by
  obtain ⟨sb, u, hsb, -⟩ := bind_eq_some.mp h
  unfold getSuper at hsb
  rw [peek_bind] at hsb
  obtain ⟨⟨⟩, v, ha, -⟩ := bind_eq_some.mp hsb
  simpa using (assert_eq_some.mp ha).1

theorem bmapCell_spent (hs : Spent s n) (h : bmapCell dev true buf addr index s = some (r, t)) :
    r ≠ 0 ∧ r < 2 ^ 16 ∧ Spent t n := by
  rcases bmapCell_cases h with ⟨-, nr, u, hb, rfl, hr⟩ | ⟨hne, rfl, hr⟩
  · obtain rfl := balloc_dev hb
    obtain ⟨rfl, z, rfl⟩ := balloc_full hs.volume hs.full hb
    have hu : Spent (s.cleaned z) n := hs.same rfl (data_cleaned s z)
    have ht := (brelse_same _ _ _ _ hr).sb
    exact ⟨by decide, by decide, (hu.setCell buf addr index).same ht (brelse_data hr)⟩
  · exact ⟨fun h0 => hne ⟨h0, rfl⟩, Bytes.rd16_lt,
      hs.same (brelse_same _ _ _ _ hr).sb (brelse_data hr)⟩

theorem bmapLoop_spent {level divider : ℕ} (hs : Spent s n)
    (h : bmapLoop dev true level buf addr index block divider s = some (r, t)) :
    r ≠ 0 ∧ r < 2 ^ 16 ∧ Spent t n := by
  induction level generalizing s buf addr index block divider with
  | zero => exact bmapCell_spent hs h
  | succ level ih =>
    obtain ⟨cell, u, hc, h⟩ := bind_eq_some.mp h
    obtain ⟨hne, -, hu⟩ := bmapCell_spent hs hc
    rw [if_neg hne] at h
    obtain ⟨b, v, hb, h⟩ := bind_eq_some.mp h
    exact ih (hu.same (bread_same dev cell u _ _ hb).sb (bread_quiet dev cell u _ _ hb).data) h

/-- With no free zone, `bmap` that creates returns neither 0 nor `EOF`. -/
theorem bmap_spent (hs : Spent s n) (h : bmap inode block true s = some (r, t)) :
    r ≠ 0 ∧ r < 2 ^ 16 ∧ Spent t n := by
  have hheld : Spent { s with cache := s.cache.hold (s.ibuf inode) } n := hs.same rfl rfl
  rw [bmap_eq (bmap_block h)] at h
  exact bmapLoop_spent hheld h

end NoZone

end Onix.Fs
