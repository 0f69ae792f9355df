import Onix.Sanity.ArenaInv

/-! What `kmalloc` and `kfree` make of a layout of the arenas. -/

namespace Onix.Arena

open Function Code Outcome Bytes
open Memory (PAGE_SIZE idx allocKpage freeKpage)
open Mutex (ONIX_MAGIC)

variable {s s' : State} {init : BitmapT} {owner : ℕ → Option Owner} {bits : Bytes}
  {p q n d i j a b count size D : ℕ}

section Pages

/-- The pages from `D` on, `count` of them, change hands. -/
def give (owner : ℕ → Option Owner) (D count : ℕ) (o : Option Owner) : ℕ → Option Owner :=
  fun p => if D ≤ p ∧ p < D + count then o else owner p

theorem give_in {o : Option Owner} (h : D ≤ p) (h' : p < D + count) :
    give owner D count o p = o := if_pos ⟨h, h'⟩

theorem give_out {o : Option Owner} (h : ¬ (D ≤ p ∧ p < D + count)) :
    give owner D count o p = owner p := if_neg h

theorem pages_pos (n : ℕ) : 0 < pages n := by
  unfold pages
  omega

theorem pages_le (n : ℕ) : n + 16 ≤ pages n * PAGE_SIZE := by
  unfold pages PAGE_SIZE
  omega

/-- The page of a pointer that has been handed out is somebody's. -/
theorem Layout.page_owned (h : Layout init owner s) (hq : (q, n) ∈ s.live) :
    (owner (idx q)).isSome := by
  rcases Nat.lt_or_ge 1024 n with hn | hn
  · have := (h.large q n hq hn).2.1 (idx q) (Nat.le_refl _) (by have := pages_pos n; omega)
    rw [this]
    rfl
  · obtain ⟨p, i, hblock⟩ := h.block q n hq hn
    rw [hblock.page.1, hblock.owner]
    rfl

/-- A pointer has been handed out once. -/
theorem Layout.live_unique {m : ℕ} (h : Layout init owner s) (hq : (q, n) ∈ s.live)
    (hq' : (q, m) ∈ s.live) : n = m := by
  have := List.inj_on_of_nodup_map h.live hq hq' rfl
  exact (Prod.mk.inj this).2

/-- The other pointers stay when one is freed. -/
theorem Layout.mem_erase (h : Layout init owner s) (hq : (q, n) ∈ s.live) (q' m : ℕ) :
    (q', m) ∈ s.live.erase (q, n) ↔ q' ≠ q ∧ (q', m) ∈ s.live := by
  rw [(List.Nodup.of_map _ h.live).mem_erase_iff]
  refine ⟨fun ⟨hne, hm⟩ => ⟨fun he => hne ?_, hm⟩, fun ⟨hne, hm⟩ => ⟨fun he => hne ?_, hm⟩⟩
  · subst he
    rw [h.live_unique hm hq]
  · exact (Prod.mk.inj he).1

/-- Pages that were nobody's, taken by `o`, as `kernel_map` then shows them. -/
theorem bit_give {o : Owner} (hbits : ∀ k, bits.bit k = (init.bits.bit k ||
      ((owner (k + 256)).isSome || decide (D ≤ k + 256 ∧ k + 256 < D + count)))) (k : ℕ) :
    bits.bit k = (init.bits.bit k || (give owner D count (some o) (k + 256)).isSome) := by
  rw [hbits]
  unfold give
  split_ifs with hk <;> simp [hk]

theorem fresh_give {o : Owner} (h : Layout init owner s) (hD : Unowned init owner D count)
    (hp : (give owner D count (some o) p).isSome) :
    256 ≤ p ∧ p < 4096 ∧ init.bits.bit (p - 256) = false := by
  obtain ⟨hlo, hhi, hnone⟩ := hD
  unfold give at hp
  split_ifs at hp with hin
  · exact ⟨by omega, by omega, (hnone p hin.1 hin.2).2⟩
  · exact h.fresh p hp

end Pages

section Large

/-- `kmalloc` of more than 1024 bytes: the pages go to the new pointer. -/
theorem Layout.malloc_large (h : Layout init owner s) (hD : Unowned init owner D (pages size))
    (hsize : 1024 < size) (hbits : ∀ k, bits.bit k = (init.bits.bit k ||
      ((owner (k + 256)).isSome || decide (D ≤ k + 256 ∧ k + 256 < D + pages size)))) :
    Layout init (give owner D (pages size) (some (.large (D * PAGE_SIZE + ARENA_SIZE))))
      { m := s.m.setKernelBits bits
        arena := update (fun p => if D ≤ p ∧ p < D + pages size then zeroArena else s.arena p) D
          ⟨none, pages size, 1, ONIX_MAGIC⟩
        freeList := s.freeList
        live := (D * PAGE_SIZE + ARENA_SIZE, size) :: s.live } := by
  have hidx : idx (D * PAGE_SIZE + ARENA_SIZE) = D := by
    unfold idx PAGE_SIZE ARENA_SIZE
    omega
  have hpos := pages_pos size
  have hnone := hD.2.2
  -- what is somebody's lies elsewhere
  have hout : ∀ p, (owner p).isSome → ¬ (D ≤ p ∧ p < D + pages size) := by
    intro p hp hin
    rw [(hnone p hin.1 hin.2).1] at hp
    cases hp
  have hnew : ∀ n, (D * PAGE_SIZE + ARENA_SIZE, n) ∉ s.live := by
    intro n hn
    have := h.page_owned hn
    rw [hidx] at this
    exact hout D this ⟨Nat.le_refl D, by omega⟩
  have hblock : ∀ p d i b, IsBlock owner p d i b →
      IsBlock (give owner D (pages size) (some (.large (D * PAGE_SIZE + ARENA_SIZE)))) p d i b := by
    intro p d i b hb
    refine ⟨?_, hb.lt, hb.eq⟩
    rw [give_out (hout p (by simp [hb.owner])), hb.owner]
  have hblock' : ∀ p d i b,
      IsBlock (give owner D (pages size) (some (.large (D * PAGE_SIZE + ARENA_SIZE)))) p d i b →
      ¬ (D ≤ p ∧ p < D + pages size) ∧ IsBlock owner p d i b := by
    intro p d i b hb
    have ho := hb.owner
    unfold give at ho
    split_ifs at ho with hin
    · simp at ho
    · exact ⟨hin, ho, hb.lt, hb.eq⟩
  have harena : ∀ p, ¬ (D ≤ p ∧ p < D + pages size) →
      update (fun p => if D ≤ p ∧ p < D + pages size then zeroArena else s.arena p) D
        ⟨none, pages size, 1, ONIX_MAGIC⟩ p = s.arena p := by
    intro p hp
    rw [update_of_ne (by rintro rfl; omega), if_neg hp]
  refine ⟨?_, h.covers, bit_give hbits, fun p hp => fresh_give h hD hp, fun p d hp => ?_,
    fun q n hq hn => ?_, fun p q hp => ?_, fun q n hq hn => ?_, fun d b hb => ?_,
    fun p d i b hb => ?_, h.lists, ?_⟩
  · dsimp only [Memory.State.setKernelBits]
    rw [h.map]
  · unfold give at hp
    split_ifs at hp with hin
    · simp at hp
    · dsimp only
      rw [harena p hin]
      exact h.small p d hp
  · rcases List.mem_cons.mp hq with he | hq
    · obtain ⟨rfl, rfl⟩ := Prod.mk.inj he
      refine ⟨?_, fun p hp hlt => ?_, ?_⟩
      · unfold PAGE_SIZE ARENA_SIZE
        omega
      · rw [hidx] at hp hlt
        exact give_in hp hlt
      · dsimp only
        rw [hidx, update_self]
    · obtain ⟨h₁, h₂, h₃⟩ := h.large q n hq hn
      refine ⟨h₁, fun p hp hlt => ?_, ?_⟩
      · rw [give_out (hout p (by simp [h₂ p hp hlt])), h₂ p hp hlt]
      · dsimp only
        rw [harena _ (hout _ (h.page_owned hq)), h₃]
  · unfold give at hp
    split_ifs at hp with hin
    · obtain rfl : D * PAGE_SIZE + ARENA_SIZE = q := by simpa using hp
      exact ⟨size, List.mem_cons_self, hsize, by rw [hidx]; exact hin.1, by rw [hidx]; exact hin.2⟩
    · obtain ⟨n, hn, hrest⟩ := h.owned p q hp
      exact ⟨n, List.mem_cons_of_mem _ hn, hrest⟩
  · rcases List.mem_cons.mp hq with he | hq
    · obtain ⟨rfl, rfl⟩ := Prod.mk.inj he
      omega
    · obtain ⟨p, i, hb⟩ := h.block q n hq hn
      exact ⟨p, i, hblock _ _ _ _ hb⟩
  · obtain ⟨⟨p, i, hb'⟩, hnot⟩ := h.free d b hb
    refine ⟨⟨p, i, hblock _ _ _ _ hb'⟩, fun n hn => ?_⟩
    rcases List.mem_cons.mp hn with he | hn
    · obtain ⟨rfl, -⟩ := Prod.mk.inj he
      have := hb'.page.1
      rw [hidx] at this
      obtain rfl := this
      exact hout D (by simp [hb'.owner]) ⟨Nat.le_refl D, by omega⟩
    · exact hnot n hn
  · rcases h.all p d i b (hblock' p d i b hb).2 with hb | ⟨n, hn⟩
    · exact .inl hb
    · exact .inr ⟨n, List.mem_cons_of_mem _ hn⟩
  · rw [List.map_cons, List.nodup_cons]
    refine ⟨fun hmem => ?_, h.live⟩
    obtain ⟨⟨q, n⟩, hq, rfl⟩ := List.mem_map.mp hmem
    exact hnew n hq

/-- `kfree` of such a pointer: its pages are nobody's again. -/
theorem Layout.free_large (h : Layout init owner s) (hq : (q, n) ∈ s.live) (hn : 1024 < n)
    (hbits : ∀ k, bits.bit k = if idx q ≤ k + 256 ∧ k + 256 < idx q + pages n then false
      else s.m.kernelMap.bits.bit k) :
    Layout init (give owner (idx q) (pages n) none)
      { s with m := s.m.setKernelBits bits, live := s.live.erase (q, n) } := by
  obtain ⟨-, hrange, -⟩ := h.large q n hq hn
  have hmem := h.mem_erase hq
  have hother : ∀ p o, owner p = some o → o ≠ .large q → ¬ (idx q ≤ p ∧ p < idx q + pages n) := by
    intro p o ho hne hin
    rw [hrange p hin.1 hin.2] at ho
    exact hne (Option.some.inj ho).symm
  have hback : ∀ p o, give owner (idx q) (pages n) none p = some o → owner p = some o := by
    intro p o ho
    unfold give at ho
    split_ifs at ho
    exact ho
  refine ⟨?_, h.covers, fun k => ?_, fun p hp => ?_, fun p d hp => h.small p d (hback _ _ hp),
    fun q' n' hq' hn' => ?_, fun p q' hp => ?_, fun q' n' hq' hn' => ?_, fun d b hb => ?_,
    fun p d i b hb => ?_, h.lists, ?_⟩
  · dsimp only [Memory.State.setKernelBits]
    rw [h.map]
  · dsimp only [Memory.State.setKernelBits]
    rw [hbits, h.bit]
    unfold give
    split_ifs with hin
    · have := (h.fresh (k + 256) (by rw [hrange _ hin.1 hin.2]; rfl)).2.2
      simpa using this
    · rfl
  · obtain ⟨o, ho⟩ := Option.isSome_iff_exists.mp hp
    exact h.fresh p (by rw [hback p o ho]; rfl)
  · obtain ⟨hne, hq'⟩ := (hmem q' n').mp hq'
    obtain ⟨h₁, h₂, h₃⟩ := h.large q' n' hq' hn'
    refine ⟨h₁, fun p hp hlt => ?_, h₃⟩
    rw [give_out (hother p _ (h₂ p hp hlt) (by simpa using hne)), h₂ p hp hlt]
  · obtain ⟨m, hm, h₁, h₂, h₃⟩ := h.owned p q' (hback _ _ hp)
    refine ⟨m, (hmem q' m).mpr ⟨?_, hm⟩, h₁, h₂, h₃⟩
    rintro rfl
    obtain rfl := h.live_unique hm hq
    rw [give_in h₂ h₃] at hp
    cases hp
  · obtain ⟨hne, hq'⟩ := (hmem q' n').mp hq'
    obtain ⟨p, i, hb⟩ := h.block q' n' hq' hn'
    refine ⟨p, i, ?_, hb.lt, hb.eq⟩
    rw [give_out (hother p _ hb.owner (by simp)), hb.owner]
  · obtain ⟨⟨p, i, hb'⟩, hnot⟩ := h.free d b hb
    refine ⟨⟨p, i, ?_, hb'.lt, hb'.eq⟩, fun m hm => hnot m ((hmem b m).mp hm).2⟩
    rw [give_out (hother p _ hb'.owner (by simp)), hb'.owner]
  · have hb' : IsBlock owner p d i b := ⟨hback _ _ hb.owner, hb.lt, hb.eq⟩
    rcases h.all p d i b hb' with hfree | ⟨m, hm⟩
    · exact .inl hfree
    · refine .inr ⟨m, (hmem b m).mpr ⟨?_, hm⟩⟩
      rintro rfl
      have := hrange (idx b) (Nat.le_refl _) (by have := pages_pos n; omega)
      rw [hb'.page.1, hb'.owner] at this
      simp at this
  · exact h.live.sublist (List.erase_sublist.map _)

end Large

section Blocks

/-- The first `n` blocks of page `D`, the last one first. -/
def blocks (D d n : ℕ) : List ℕ := ((List.range n).map (blockAddr D d)).reverse

theorem mem_blocks : b ∈ blocks D d n ↔ ∃ i < n, b = blockAddr D d i := by
  simp only [blocks, List.mem_reverse, List.mem_map, List.mem_range]
  constructor
  · rintro ⟨i, hi, rfl⟩
    exact ⟨i, hi, rfl⟩
  · rintro ⟨i, hi, rfl⟩
    exact ⟨i, hi, rfl⟩

theorem blocks_succ (D d n : ℕ) : blocks D d (n + 1) = blockAddr D d n :: blocks D d n := by
  simp [blocks, List.range_succ]

theorem length_blocks (D d n : ℕ) : (blocks D d n).length = n := by
  simp [blocks]

theorem nodup_blocks (D d : ℕ) : (blocks D d (totalBlock d)).Nodup := by
  unfold blocks
  rw [List.nodup_reverse]
  refine List.Nodup.map_on (fun i hi j hj he => ?_) List.nodup_range
  exact (blockAddr_inj (List.mem_range.mp hi) (List.mem_range.mp hj) he).2

/-- How many blocks of the page `p` are on a list. -/
def countPage (l : List ℕ) (p : ℕ) : ℕ := l.countP fun b => idx b = p

theorem countPage_cons (l : List ℕ) (b p : ℕ) :
    countPage (b :: l) p = countPage l p + if idx b = p then 1 else 0 := by
  unfold countPage
  rw [List.countP_cons]
  simp

theorem countPage_eq_zero {l : List ℕ} (h : ∀ b ∈ l, idx b ≠ p) : countPage l p = 0 := by
  unfold countPage
  rw [List.countP_eq_zero]
  simpa using h

theorem countPage_blocks (D d : ℕ) : countPage (blocks D d (totalBlock d)) D = totalBlock d := by
  unfold countPage
  rw [List.countP_eq_length.mpr, length_blocks]
  intro b hb
  obtain ⟨i, hi, rfl⟩ := mem_blocks.mp hb
  simpa using (blockAddr_self hi).1

/-- All blocks of a page are on the list if they are as many. -/
theorem full_of_count {l : List ℕ} (hl : l.Nodup)
    (hmem : ∀ b ∈ l, idx b = p → ∃ i < totalBlock d, b = blockAddr p d i)
    (hcount : countPage l p = totalBlock d) (hi : i < totalBlock d) : blockAddr p d i ∈ l := by
  have hsub : l.filter (fun b => idx b = p) ⊆ blocks p d (totalBlock d) := by
    intro b hb
    obtain ⟨hb, hp⟩ := List.mem_filter.mp hb
    exact mem_blocks.mpr (hmem b hb (by simpa using hp))
  have hperm := (List.subperm_of_subset (hl.filter _) hsub).perm_of_length_le (by
    rw [length_blocks, ← List.countP_eq_length_filter]
    exact hcount.ge)
  have := hperm.mem_iff.mpr (mem_blocks.mpr ⟨i, hi, rfl⟩)
  exact (List.mem_filter.mp this).1

/-- A page with fewer blocks on the list has one that is not. -/
theorem exists_of_count {l : List ℕ} (hcount : countPage l p < totalBlock d) :
    ∃ i < totalBlock d, blockAddr p d i ∉ l := by
  by_contra hall
  push Not at hall
  have hsub : blocks p d (totalBlock d) ⊆ l.filter (fun b => idx b = p) := by
    intro b hb
    obtain ⟨i, hi, rfl⟩ := mem_blocks.mp hb
    exact List.mem_filter.mpr ⟨hall i hi, by simpa using (blockAddr_self hi).1⟩
  have hle := (List.subperm_of_subset (nodup_blocks p d) hsub).length_le
  rw [length_blocks, ← List.countP_eq_length_filter] at hle
  exact Nat.not_lt.mpr hle hcount

theorem totalBlock_le (d : ℕ) : totalBlock d ≤ 255 := by
  unfold totalBlock PAGE_SIZE ARENA_SIZE
  exact Nat.div_le_div_left (blockSize_ge d) (by omega)

end Blocks

section Small

theorem Layout.header (h : Layout init owner s) (hp : owner p = some (.small d)) :
    s.arena p = ⟨some d, countPage (s.freeList d) p, 0, ONIX_MAGIC⟩ := (h.small p d hp).2

/-- A free block lies in a page cut into such blocks. -/
theorem Layout.free_page (h : Layout init owner s) (hb : b ∈ s.freeList d) :
    ∃ i, IsBlock owner (idx b) d i b := by
  obtain ⟨⟨p, i, hblock⟩, -⟩ := h.free d b hb
  exact ⟨i, hblock.page.1 ▸ hblock⟩

/-- A new page cut into blocks, all of them on the list. -/
theorem Layout.new_arena (h : Layout init owner s) (hD : Unowned init owner D 1)
    (hd : d < DESC_COUNT) (hempty : s.freeList d = []) (hbits : ∀ k, bits.bit k =
      (init.bits.bit k || ((owner (k + 256)).isSome || decide (D ≤ k + 256 ∧ k + 256 < D + 1)))) :
    Layout init (give owner D 1 (some (.small d)))
      { m := s.m.setKernelBits bits
        arena := update (fun p => if D ≤ p ∧ p < D + 1 then zeroArena else s.arena p) D
          ⟨some d, totalBlock d, 0, ONIX_MAGIC⟩
        freeList := update s.freeList d (blocks D d (totalBlock d))
        live := s.live } := by
  have hnone : owner D = none := (hD.2.2 D (Nat.le_refl D) (by omega)).1
  have hself : give owner D 1 (some (.small d)) D = some (.small d) :=
    give_in (Nat.le_refl D) (by omega)
  have hother : ∀ p, p ≠ D → give owner D 1 (some (.small d)) p = owner p :=
    fun p hp => give_out (by omega)
  have hne : ∀ p, (owner p).isSome → p ≠ D := by
    rintro p hp rfl
    rw [hnone] at hp
    cases hp
  have harena : ∀ p, p ≠ D →
      update (fun p => if D ≤ p ∧ p < D + 1 then zeroArena else s.arena p) D
        ⟨some d, totalBlock d, 0, ONIX_MAGIC⟩ p = s.arena p := by
    intro p hp
    rw [update_of_ne hp, if_neg (by omega)]
  have hblock : ∀ p d' i b, IsBlock owner p d' i b →
      IsBlock (give owner D 1 (some (.small d))) p d' i b := by
    intro p d' i b hb
    exact ⟨(hother p (hne p (by simp [hb.owner]))).trans hb.owner, hb.lt, hb.eq⟩
  refine ⟨?_, h.covers, bit_give hbits, fun p hp => fresh_give h hD hp, fun p d' hp => ?_,
    fun q n hq hn => ?_, fun p q hp => ?_, fun q n hq hn => ?_, fun d' b hb => ?_,
    fun p d' i b hb => ?_, fun d' => ?_, h.live⟩
  · dsimp only [Memory.State.setKernelBits]
    rw [h.map]
  · obtain rfl | hpD := eq_or_ne p D
    · obtain rfl : d = d' := by simpa [hself] using hp
      refine ⟨hd, ?_⟩
      dsimp only
      rw [update_self, update_self]
      congr 1
      exact (countPage_blocks p d).symm
    · rw [hother p hpD] at hp
      obtain ⟨hd', -⟩ := h.small p d' hp
      refine ⟨hd', ?_⟩
      dsimp only
      rw [harena p hpD, h.header hp]
      congr 1
      obtain rfl | hdd := eq_or_ne d' d
      · rw [update_self, hempty]
        refine (countPage_eq_zero fun b hb => ?_).symm
        obtain ⟨i, hi, rfl⟩ := mem_blocks.mp hb
        rw [(blockAddr_self hi).1]
        exact hpD.symm
      · rw [update_of_ne hdd]
        rfl
  · obtain ⟨h₁, h₂, h₃⟩ := h.large q n hq hn
    refine ⟨h₁, fun p hp hlt => ?_, ?_⟩
    · rw [hother p (hne p (by simp [h₂ p hp hlt])), h₂ p hp hlt]
    · dsimp only
      rw [harena _ (hne _ (h.page_owned hq)), h₃]
  · obtain rfl | hpD := eq_or_ne p D
    · simp [hself] at hp
    · exact h.owned p q (by rwa [hother p hpD] at hp)
  · obtain ⟨p, i, hb⟩ := h.block q n hq hn
    exact ⟨p, i, hblock _ _ _ _ hb⟩
  · dsimp only at hb
    obtain rfl | hdd := eq_or_ne d' d
    · rw [update_self] at hb
      obtain ⟨i, hi, rfl⟩ := mem_blocks.mp hb
      refine ⟨⟨D, i, hself, hi, rfl⟩, fun n hn => ?_⟩
      have := h.page_owned hn
      rw [(blockAddr_self hi).1, hnone] at this
      cases this
    · rw [update_of_ne hdd] at hb
      obtain ⟨⟨p, i, hb⟩, hnot⟩ := h.free d' b hb
      exact ⟨⟨p, i, hblock _ _ _ _ hb⟩, hnot⟩
  · obtain rfl | hpD := eq_or_ne p D
    · obtain rfl : d = d' := by simpa [hself] using hb.owner
      left
      dsimp only
      rw [update_self]
      exact mem_blocks.mpr ⟨i, hb.lt, hb.eq⟩
    · have hb' : IsBlock owner p d' i b := ⟨(hother p hpD).symm.trans hb.owner, hb.lt, hb.eq⟩
      rcases h.all p d' i b hb' with hfree | hlive
      · left
        dsimp only
        rw [update_of_ne]
        · exact hfree
        · rintro rfl
          rw [hempty] at hfree
          cases hfree
      · exact .inr hlive
  · dsimp only
    obtain rfl | hdd := eq_or_ne d' d
    · rw [update_self]
      exact nodup_blocks D d'
    · rw [update_of_ne hdd]
      exact h.lists d'

/-- `list_pop` and the count: a block is handed out. -/
theorem Layout.take (h : Layout init owner s) {l : List ℕ} (hl : s.freeList d = b :: l)
    (hn : n ≤ 1024) (hd : descFor n = d) :
    Layout init owner { s with
      arena := update s.arena (idx b) ⟨some d, countPage l (idx b), 0, ONIX_MAGIC⟩
      freeList := update s.freeList d l
      live := (b, n) :: s.live } := by
  obtain ⟨i₀, hb₀⟩ := h.free_page (d := d) (b := b) (by simp [hl])
  have hnew := (h.free d b (by simp [hl])).2
  have hnd := List.nodup_cons.mp (hl ▸ h.lists d)
  have hmem : ∀ d' b', b' ∈ update s.freeList d l d' ↔ b' ≠ b ∧ b' ∈ s.freeList d' := by
    intro d' b'
    obtain rfl | hdd := eq_or_ne d' d
    · rw [update_self, hl, List.mem_cons]
      constructor
      · intro hb'
        refine ⟨?_, .inr hb'⟩
        rintro rfl
        exact hnd.1 hb'
      · rintro ⟨hne, rfl | hb'⟩
        · exact absurd rfl hne
        · exact hb'
    · rw [update_of_ne hdd]
      refine ⟨fun hb' => ⟨?_, hb'⟩, And.right⟩
      rintro rfl
      obtain ⟨i, hi⟩ := h.free_page hb'
      have := hi.owner.symm.trans hb₀.owner
      exact hdd (by simpa using this)
  refine ⟨h.map, h.covers, h.bit, h.fresh, fun p d' hp => ?_, fun q m hq hm => ?_, fun p q hp => ?_,
    fun q m hq hm => ?_, fun d' b' hb' => ?_, fun p d' i b' hb' => ?_, fun d' => ?_, ?_⟩
  · refine ⟨(h.small p d' hp).1, ?_⟩
    dsimp only
    obtain rfl | hpb := eq_or_ne p (idx b)
    · obtain rfl : d = d' := by simpa using hb₀.owner.symm.trans hp
      rw [update_self, update_self]
      rfl
    · rw [update_of_ne hpb, h.header hp]
      congr 1
      obtain rfl | hdd := eq_or_ne d' d
      · rw [update_self, hl, countPage_cons, if_neg (Ne.symm hpb)]
        rfl
      · rw [update_of_ne hdd]
        rfl
  · rcases List.mem_cons.mp hq with he | hq
    · obtain ⟨rfl, rfl⟩ := Prod.mk.inj he
      omega
    · obtain ⟨h₁, h₂, h₃⟩ := h.large q m hq hm
      refine ⟨h₁, h₂, ?_⟩
      dsimp only
      rw [update_of_ne, h₃]
      intro he
      have := h₂ (idx q) (Nat.le_refl _) (by have := pages_pos m; omega)
      rw [he, hb₀.owner] at this
      simp at this
  · obtain ⟨m, hm, hrest⟩ := h.owned p q hp
    exact ⟨m, List.mem_cons_of_mem _ hm, hrest⟩
  · rcases List.mem_cons.mp hq with he | hq
    · obtain ⟨rfl, rfl⟩ := Prod.mk.inj he
      exact ⟨_, i₀, hd ▸ hb₀⟩
    · exact h.block q m hq hm
  · obtain ⟨hne, hb'⟩ := (hmem d' b').mp hb'
    obtain ⟨hplace, hnot⟩ := h.free d' b' hb'
    refine ⟨hplace, fun m hm => ?_⟩
    rcases List.mem_cons.mp hm with he | hm
    · exact hne (Prod.mk.inj he).1
    · exact hnot m hm
  · obtain rfl | hne := eq_or_ne b' b
    · exact .inr ⟨n, List.mem_cons_self⟩
    · rcases h.all p d' i b' hb' with hfree | ⟨m, hm⟩
      · exact .inl ((hmem d' b').mpr ⟨hne, hfree⟩)
      · exact .inr ⟨m, List.mem_cons_of_mem _ hm⟩
  · dsimp only
    obtain rfl | hdd := eq_or_ne d' d
    · rw [update_self]
      exact hnd.2
    · rw [update_of_ne hdd]
      exact h.lists d'
  · rw [List.map_cons, List.nodup_cons]
    refine ⟨fun hmem => ?_, h.live⟩
    obtain ⟨⟨q, m⟩, hq, rfl⟩ := List.mem_map.mp hmem
    exact hnew m hq

/-- `list_push` and the count: a block comes back. -/
theorem Layout.put (h : Layout init owner s) (hq : (q, n) ∈ s.live) (hn : n ≤ 1024)
    (hd : descFor n = d) :
    Layout init owner { s with
      arena := update s.arena (idx q) ⟨some d, countPage (q :: s.freeList d) (idx q), 0, ONIX_MAGIC⟩
      freeList := update s.freeList d (q :: s.freeList d)
      live := s.live.erase (q, n) } := by
  obtain ⟨p₀, i₀, hq₀⟩ := h.block q n hq hn
  rw [hd] at hq₀
  obtain rfl := hq₀.page.1
  have hfree : ∀ d', q ∉ s.freeList d' := fun d' hmem => (h.free d' q hmem).2 n hq
  have hmem := h.mem_erase hq
  refine ⟨h.map, h.covers, h.bit, h.fresh, fun p d' hp => ?_, fun q' m hq' hm => ?_,
    fun p q' hp => ?_, fun q' m hq' hm => ?_, fun d' b hb => ?_, fun p d' i b hb => ?_,
    fun d' => ?_, ?_⟩
  · refine ⟨(h.small p d' hp).1, ?_⟩
    dsimp only
    obtain rfl | hpq := eq_or_ne p (idx q)
    · obtain rfl : d = d' := by simpa using hq₀.owner.symm.trans hp
      rw [update_self, update_self]
      rfl
    · rw [update_of_ne hpq, h.header hp]
      congr 1
      obtain rfl | hdd := eq_or_ne d' d
      · rw [update_self]
        refine Eq.trans ?_ (countPage_cons (s.freeList d') q p).symm
        rw [if_neg (Ne.symm hpq), Nat.add_zero]
      · rw [update_of_ne hdd]
        rfl
  · obtain ⟨hne, hq'⟩ := (hmem q' m).mp hq'
    obtain ⟨h₁, h₂, h₃⟩ := h.large q' m hq' hm
    refine ⟨h₁, h₂, ?_⟩
    dsimp only
    rw [update_of_ne, h₃]
    intro he
    have := h₂ (idx q') (Nat.le_refl _) (by have := pages_pos m; omega)
    rw [he, hq₀.owner] at this
    simp at this
  · obtain ⟨m, hm, h₁, hrest⟩ := h.owned p q' hp
    refine ⟨m, (hmem q' m).mpr ⟨?_, hm⟩, h₁, hrest⟩
    rintro rfl
    obtain rfl := h.live_unique hm hq
    omega
  · exact h.block q' m ((hmem q' m).mp hq').2 hm
  · dsimp only at hb
    have hold : ∀ d', b ∈ s.freeList d' →
        (∃ p i, IsBlock owner p d' i b) ∧ ∀ m, (b, m) ∉ s.live.erase (q, n) := by
      intro d' hb
      obtain ⟨hplace, hnot⟩ := h.free d' b hb
      exact ⟨hplace, fun m hm => hnot m ((hmem b m).mp hm).2⟩
    obtain rfl | hdd := eq_or_ne d' d
    · rw [update_self] at hb
      rcases List.mem_cons.mp hb with rfl | hb
      · exact ⟨⟨_, i₀, hq₀⟩, fun m hm => ((hmem b m).mp hm).1 rfl⟩
      · exact hold d' hb
    · rw [update_of_ne hdd] at hb
      exact hold d' hb
  · dsimp only
    obtain rfl | hne := eq_or_ne b q
    · obtain rfl : p = idx b := hb.page.1.symm
      obtain rfl : d = d' := by simpa using hq₀.owner.symm.trans hb.owner
      left
      rw [update_self]
      exact List.mem_cons_self
    · rcases h.all p d' i b hb with hfree' | ⟨m, hm⟩
      · left
        obtain rfl | hdd := eq_or_ne d' d
        · rw [update_self]
          exact List.mem_cons_of_mem _ hfree'
        · rw [update_of_ne hdd]
          exact hfree'
      · exact .inr ⟨m, (hmem b m).mpr ⟨hne, hm⟩⟩
  · dsimp only
    obtain rfl | hdd := eq_or_ne d' d
    · rw [update_self]
      exact List.nodup_cons.mpr ⟨hfree d', h.lists d'⟩
    · rw [update_of_ne hdd]
      exact h.lists d'
  · exact h.live.sublist (List.erase_sublist.map _)

/-- A page all of whose blocks are free is given back. -/
theorem Layout.drop (h : Layout init owner s) (hp : owner p = some (.small d))
    (hfull : countPage (s.freeList d) p = totalBlock d)
    (hbits : ∀ k, bits.bit k = if p ≤ k + 256 ∧ k + 256 < p + 1 then false
      else s.m.kernelMap.bits.bit k) :
    Layout init (give owner p 1 none)
      { s with
        m := s.m.setKernelBits bits
        freeList := update s.freeList d ((s.freeList d).filter fun b => idx b ≠ p) } := by
  have hall : ∀ i < totalBlock d, blockAddr p d i ∈ s.freeList d := by
    intro i hi
    refine full_of_count (h.lists d) (fun b hb he => ?_) hfull hi
    obtain ⟨j, hj⟩ := h.free_page hb
    exact ⟨j, hj.lt, he ▸ hj.eq⟩
  have hother : ∀ p', p' ≠ p → give owner p 1 none p' = owner p' := fun p' hp' => give_out (by omega)
  have hself : give owner p 1 none p = none := give_in (Nat.le_refl p) (by omega)
  have hback : ∀ p' o, give owner p 1 none p' = some o → p' ≠ p ∧ owner p' = some o := by
    intro p' o ho
    have hne : p' ≠ p := by
      rintro rfl
      rw [hself] at ho
      cases ho
    exact ⟨hne, (hother p' hne).symm.trans ho⟩
  have hmem : ∀ d' b, b ∈ update s.freeList d ((s.freeList d).filter fun b => idx b ≠ p) d' ↔
      idx b ≠ p ∧ b ∈ s.freeList d' := by
    intro d' b
    obtain rfl | hdd := eq_or_ne d' d
    · rw [update_self, List.mem_filter, and_comm]
      simp
    · rw [update_of_ne hdd]
      refine ⟨fun hb => ⟨?_, hb⟩, And.right⟩
      rintro rfl
      obtain ⟨i, hi⟩ := h.free_page hb
      have := hi.owner.symm.trans hp
      exact hdd (by simpa using this)
  have hlive : ∀ q n, (q, n) ∈ s.live → n ≤ 1024 → idx q ≠ p := by
    rintro q n hq hn rfl
    obtain ⟨p', i, hb⟩ := h.block q n hq hn
    obtain rfl := hb.page.1
    obtain hd : descFor n = d := by simpa using hb.owner.symm.trans hp
    rw [hd] at hb
    exact (h.free d q (hb.eq ▸ hall i hb.lt)).2 n hq
  refine ⟨?_, h.covers, fun k => ?_, fun p' hp' => ?_, fun p' d' hp' => ?_, fun q n hq hn => ?_,
    fun p' q hp' => h.owned p' q (hback p' _ hp').2, fun q n hq hn => ?_, fun d' b hb => ?_,
    fun p' d' i b hb => ?_, fun d' => ?_, h.live⟩
  · dsimp only [Memory.State.setKernelBits]
    rw [h.map]
  · dsimp only [Memory.State.setKernelBits]
    rw [hbits, h.bit]
    split_ifs with hk
    · obtain rfl : p = k + 256 := by omega
      have := (h.fresh (k + 256) (by rw [hp]; rfl)).2.2
      simpa [hself] using this
    · rw [hother _ (by omega)]
  · obtain ⟨o, ho⟩ := Option.isSome_iff_exists.mp hp'
    exact h.fresh p' (by rw [(hback p' o ho).2]; rfl)
  · obtain ⟨hne, hp'⟩ := hback p' _ hp'
    refine ⟨(h.small p' d' hp').1, ?_⟩
    dsimp only
    rw [h.header hp']
    congr 1
    obtain rfl | hdd := eq_or_ne d' d
    · rw [update_self, List.countP_filter]
      refine List.countP_congr fun b _ => ?_
      have : idx b = p' → idx b ≠ p := by
        rintro rfl
        exact hne
      simpa using this
    · rw [update_of_ne hdd]
      rfl
  · obtain ⟨h₁, h₂, h₃⟩ := h.large q n hq hn
    refine ⟨h₁, fun p' hp' hlt => ?_, h₃⟩
    have := h₂ p' hp' hlt
    rw [hother p' (by rintro rfl; simp [hp] at this), this]
  · obtain ⟨p', i, hb⟩ := h.block q n hq hn
    refine ⟨p', i, ?_, hb.lt, hb.eq⟩
    rw [hother p' (hb.page.1 ▸ hlive q n hq hn), hb.owner]
  · obtain ⟨hne, hb⟩ := (hmem d' b).mp hb
    obtain ⟨i, hb'⟩ := h.free_page hb
    exact ⟨⟨idx b, i, (hother _ hne).trans hb'.owner, hb'.lt, hb'.eq⟩, (h.free d' b hb).2⟩
  · obtain ⟨hne, ho⟩ := hback p' _ hb.owner
    have hb' : IsBlock owner p' d' i b := ⟨ho, hb.lt, hb.eq⟩
    rcases h.all p' d' i b hb' with hfree | hl
    · exact .inl ((hmem d' b).mpr ⟨hb'.page.1.trans_ne hne, hfree⟩)
    · exact .inr hl
  · dsimp only
    obtain rfl | hdd := eq_or_ne d' d
    · rw [update_self]
      exact (h.lists d').filter _
    · rw [update_of_ne hdd]
      exact h.lists d'

end Small

end Onix.Arena
