import Onix.Spec.Ards

/-! `memory_init` on the list of regions, whichever way it is given. -/

namespace Onix.Ards

open Memory (PAGE_SIZE MEMORY_BASE KERNEL_MEMORY_SIZE idx)
open Mutex (ONIX_MAGIC)

variable {m m' : Bytes} {a a' ptr tag tag' e n : ℕ} {s : Selected} {r : Region} {l xs ys : List Region}

instance (r : Region) : Decidable r.Valid := inferInstanceAs (Decidable (_ = _))

/-- One region, as both loops treat it. -/
def Selected.take (s : Selected) (r : Region) : Selected :=
  if r.Valid ∧ s.memorySize < r.size.toNat then ⟨r.base.toNat % 2 ^ 32, r.size.toNat % 2 ^ 32⟩ else s

/-- What the loops leave. -/
def chosen (l : List Region) : Selected := l.foldl Selected.take ⟨0, 0⟩

section Loops

/-- The fields of a region, in a turn of a loop. -/
theorem Region.At.take (h : r.At m ptr) :
    (if m.rd32 (ptr + 16) = ZONE_VALID ∧ s.memorySize < rd64 m (ptr + 8) then
      (⟨rd64 m ptr % 2 ^ 32, rd64 m (ptr + 8) % 2 ^ 32⟩ : Selected) else s) = s.take r := by
  rw [h.base, h.size, h.type]
  rfl

theorem ardsLoop_eq (h : Listed m 20 ptr l) (hfits : ptr + 20 * l.length ≤ 2 ^ 32) :
    ardsLoop m l.length (ptr % 2 ^ 32) s = l.foldl Selected.take s := by
  induction l generalizing ptr s with
  | nil => rfl
  | cons r l ih =>
    rw [List.length_cons] at hfits
    have hptr : ptr % 2 ^ 32 = ptr := Nat.mod_eq_of_lt (by omega)
    rw [List.length_cons, ardsLoop, hptr, h.1.take, List.foldl_cons]
    exact ih h.2 (by omega)

theorem tagLoop_eq (h : Tags m tag' tag) (hn : 2 ^ 32 ≤ tag + n) (htag : tag < 2 ^ 32) :
    tagLoop m n tag = some tag' := by
  induction h generalizing n with
  | mmap htype =>
    obtain ⟨n, rfl⟩ := Nat.exists_eq_succ_of_ne_zero (n := n) (by omega)
    rw [tagLoop, htype, if_neg (by decide), if_pos rfl]
  | other htype hmore hsize hfits _ ih =>
    obtain ⟨n, rfl⟩ := Nat.exists_eq_succ_of_ne_zero (n := n) (by omega)
    rename_i tag _
    have hround : (m.rd32 (tag + 4) + 7) % 2 ^ 32 = m.rd32 (tag + 4) + 7 :=
      Nat.mod_eq_of_lt (by omega)
    rw [tagLoop, if_neg hmore, if_neg htype, hround, Nat.mod_eq_of_lt hfits]
    exact ih (by omega) hfits

theorem mmapLoop_eq (h : Listed m (m.rd32 (tag + 8)) ptr l)
    (hptr : ptr + m.rd32 (tag + 8) * l.length = tag + m.rd32 (tag + 4))
    (hfits : tag + m.rd32 (tag + 4) < 2 ^ 32) (hentry : 0 < m.rd32 (tag + 8))
    (hn : l.length < n) :
    mmapLoop m tag n (ptr % 2 ^ 32) s = some (l.foldl Selected.take s) := by
  induction l generalizing ptr s n with
  | nil =>
    obtain ⟨n, rfl⟩ := Nat.exists_eq_succ_of_ne_zero (Nat.ne_of_gt hn)
    rw [List.length_nil, Nat.mul_zero] at hptr
    have hend : ¬ ptr % 2 ^ 32 < tag + m.rd32 (tag + 4) := by omega
    rw [mmapLoop, Nat.mod_eq_of_lt hfits, if_neg hend]
    rfl
  | cons r l ih =>
    obtain ⟨n, rfl⟩ := Nat.exists_eq_succ_of_ne_zero (Nat.ne_of_gt (Nat.zero_lt_of_lt hn))
    rw [List.length_cons, Nat.mul_succ] at hptr
    rw [List.length_cons] at hn
    have hlt : ptr < tag + m.rd32 (tag + 4) := by omega
    rw [mmapLoop, Nat.mod_eq_of_lt (Nat.lt_trans hlt hfits), Nat.mod_eq_of_lt hfits, if_pos hlt,
      h.1.take, List.foldl_cons]
    exact ih h.2 (by omega) (by omega)

theorem select_ards (h : ArdsAt m a l) : select m ONIX_MAGIC a = some (chosen l) := by
  unfold select
  rw [if_pos rfl, h.count]
  exact congrArg some (ardsLoop_eq h.regions h.fits)

theorem length_lt (h : MmapAt m a tag l) : l.length < TURNS := by
  have hentry := h.entry
  have hfits := h.fits
  have hle : 1 * l.length ≤ m.rd32 (tag + 8) * l.length := Nat.mul_le_mul_right _ (by omega)
  unfold TURNS
  omega

theorem select_mmap (h : MmapAt m a tag l) :
    select m MULTIBOOT2_MAGIC a = some (chosen l) := by
  have htag := tagLoop_eq (n := TURNS) h.tags (by unfold TURNS; omega) h.start
  have hsize := h.size
  have hfits := h.fits
  have hentry := h.entry
  unfold select
  rw [if_neg (by decide), if_pos rfl, Nat.mod_eq_of_lt h.start, htag]
  exact mmapLoop_eq h.regions (by omega) (by omega) (by omega) (length_lt h)

end Loops

section Choice

theorem take_eq_self (h : r.Valid → r.size.toNat ≤ s.memorySize) : s.take r = s := by
  unfold Selected.take
  rw [if_neg fun hr => Nat.not_lt.mpr (h hr.1) hr.2]

/-- Nothing larger follows. -/
theorem foldl_keeps (h : ∀ x ∈ l, x.Valid → x.size.toNat ≤ s.memorySize) :
    l.foldl Selected.take s = s := by
  induction l with
  | nil => rfl
  | cons x l ih =>
    rw [List.foldl_cons, take_eq_self (h x (by simp))]
    exact ih fun y hy => h y (by simp [hy])

/-- Sizes below a bound stay below it. -/
theorem foldl_lt (hs : s.memorySize < n) (h : ∀ x ∈ l, x.Valid → x.size.toNat % 2 ^ 32 < n) :
    (l.foldl Selected.take s).memorySize < n := by
  induction l generalizing s with
  | nil => exact hs
  | cons x l ih =>
    rw [List.foldl_cons]
    apply ih _ fun y hy => h y (by simp [hy])
    unfold Selected.take
    split
    · rename_i hx
      exact h x (by simp) hx.1
    · exact hs

/-- The largest region is selected as far as it fits. -/
theorem chosen_largest (h : Largest l r) (hpos : 0 < r.size.toNat) (hlt : r.size.toNat < 2 ^ 32) :
    chosen l = ⟨r.base.toNat % 2 ^ 32, r.size.toNat⟩ := by
  obtain ⟨xs, ys, rfl, hr, hxs, hys⟩ := h
  have hbefore : (xs.foldl Selected.take ⟨0, 0⟩).memorySize < r.size.toNat := by
    apply foldl_lt hpos
    intro x hx hv
    exact Nat.lt_of_le_of_lt (Nat.mod_le ..) (hxs x hx hv)
  unfold chosen
  rw [List.foldl_append, List.foldl_cons, Selected.take, if_pos ⟨hr, hbefore⟩,
    Nat.mod_eq_of_lt hlt]
  exact foldl_keeps hys

theorem chosen_empty (h : Largest l r) (hzero : r.size.toNat = 0) : chosen l = ⟨0, 0⟩ := by
  obtain ⟨xs, ys, rfl, hr, hxs, hys⟩ := h
  apply foldl_keeps
  intro x hx hv
  rcases List.mem_append.mp hx with hx | hx
  · have hlt := BitVec.lt_def.mp (hxs x hx hv)
    omega
  · rcases List.mem_cons.mp hx with rfl | hx
    · exact Nat.le_of_eq hzero
    · have hle := BitVec.le_def.mp (hys x hx hv)
      exact Nat.le_trans hle (Nat.le_of_eq hzero)

theorem chosen_iff (h : Largest l r) :
    chosen l = ⟨r.base.toNat, r.size.toNat⟩ ↔
      if r.size = 0 then r.base = 0 else r.base.toNat < 2 ^ 32 ∧ r.size.toNat < 2 ^ 32 := by
  split
  · rename_i hzero
    rw [chosen_empty h (by rw [hzero]; rfl), hzero]
    simp only [Selected.mk.injEq]
    constructor
    · intro he
      exact BitVec.eq_of_toNat_eq he.1.symm
    · intro he
      rw [he]
      exact ⟨rfl, rfl⟩
  · rename_i hne
    have hpos : 0 < r.size.toNat := Nat.pos_of_ne_zero fun he => hne (BitVec.eq_of_toNat_eq he)
    constructor
    · intro he
      have hsize : (chosen l).memorySize < 2 ^ 32 :=
        foldl_lt (by decide) fun x _ _ => Nat.mod_lt _ (by decide)
      rw [he] at hsize
      rw [chosen_largest h hpos hsize] at he
      have hbase := (Selected.mk.inj he).1
      rw [← hbase]
      exact ⟨Nat.mod_lt _ (by decide), hsize⟩
    · intro hlt
      rw [chosen_largest h hpos hlt.2, Nat.mod_eq_of_lt hlt.1]

end Choice

section Paths

/-- The same regions, from the loader and in a Multiboot2 memory map: `memory_init` does the
same, and selects the first of the largest valid ones exactly when its base and its size are
`u32` values, or, where the largest is empty, when its base is 0. -/
theorem memory_init_selects_iff (h : ArdsAt m a l) (h' : MmapAt m' a' tag l) :
    memoryInit m ONIX_MAGIC a = memoryInit m' MULTIBOOT2_MAGIC a' ∧
      select m ONIX_MAGIC a = select m' MULTIBOOT2_MAGIC a' ∧
      ∀ r, Largest l r →
        (select m ONIX_MAGIC a = some ⟨r.base.toNat, r.size.toNat⟩ ↔
          if r.size = 0 then r.base = 0 else r.base.toNat < 2 ^ 32 ∧ r.size.toNat < 2 ^ 32) := by
  have hards := select_ards h
  have hsame := hards.trans (select_mmap h').symm
  refine ⟨?_, hsame, fun r hr => ?_⟩
  · unfold memoryInit
    rw [hsame]
  · rw [hards, Option.some_inj]
    exact chosen_iff hr

/-- One MB at 1 MB, and two of 4 GB and 1 MB above 4 GB. -/
def high : List Region := [⟨0x100000, 0x100000, 1⟩, ⟨0x100000000, 0x100100000, 1⟩]

/-- The array and the count of `high`, at 0. -/
def highArds : Bytes := fun i => match i with
  | 0 => 2 | 6 => 0x10 | 14 => 0x10 | 20 => 1
  | 28 => 1 | 34 => 0x10 | 36 => 1 | 40 => 1
  | _ => 0

/-- A memory map of `high` in a tag at 8. -/
def highMmap : Bytes := fun i => match i with
  | 8 => 6 | 12 => 64 | 16 => 24
  | 26 => 0x10 | 34 => 0x10 | 40 => 1
  | 52 => 1 | 58 => 0x10 | 60 => 1 | 64 => 1
  | _ => 0

theorem ardsAt_high : ArdsAt highArds 0 high :=
  ⟨by decide, ⟨⟨by decide, by decide, by decide⟩, ⟨by decide, by decide, by decide⟩, trivial⟩,
    by decide⟩

theorem mmapAt_high : MmapAt highMmap 0 8 high :=
  ⟨by decide, .mmap (by decide), by decide, by decide,
    ⟨⟨by decide, by decide, by decide⟩, ⟨by decide, by decide, by decide⟩, trivial⟩, by decide⟩

theorem largest_high : Largest high ⟨0x100000000, 0x100100000, 1⟩ := by
  refine ⟨[⟨0x100000, 0x100000, 1⟩], [], rfl, by decide, ?_, by simp⟩
  intro x hx _
  obtain rfl := List.mem_singleton.mp hx
  decide

/-- The region above 4 GB is the largest; base 0 and size 1 MB are stored. -/
theorem select_high : ArdsAt highArds 0 high ∧ Largest high ⟨0x100000000, 0x100100000, 1⟩ ∧
    select highArds ONIX_MAGIC 0 = some ⟨0, 0x100000⟩ ∧
    select highArds ONIX_MAGIC 0 ≠ some ⟨0x100000000, 0x100100000⟩ := by
  have hselect : select highArds ONIX_MAGIC 0 = some ⟨0, 0x100000⟩ :=
    (select_ards ardsAt_high).trans (by decide)
  refine ⟨ardsAt_high, largest_high, hselect, ?_⟩
  rw [hselect]
  decide

theorem memory_init_selects_iff_high :
    memoryInit highArds ONIX_MAGIC 0 = memoryInit highMmap MULTIBOOT2_MAGIC 0 ∧
      select highArds ONIX_MAGIC 0 = select highMmap MULTIBOOT2_MAGIC 0 ∧
      ∀ r, Largest high r →
        (select highArds ONIX_MAGIC 0 = some ⟨r.base.toNat, r.size.toNat⟩ ↔
          if r.size = 0 then r.base = 0 else r.base.toNat < 2 ^ 32 ∧ r.size.toNat < 2 ^ 32) :=
  memory_init_selects_iff ardsAt_high mmapAt_high

end Paths

end Onix.Ards
