import Onix.Sanity.ArenaOps

/-! `kmalloc` and `kfree` over every run: what is handed out is disjoint and keeps off the
headers, the counts are those of the free lists, no assertion fails, and every page comes
back. -/

namespace Onix.Arena

open Function Code Outcome Bytes
open Memory (PAGE_SIZE idx allocKpage freeKpage)
open Mutex (ONIX_MAGIC)

variable {s s' s₀ : State} {init : BitmapT} {owner : ℕ → Option Owner} {bits : Bytes}
  {p q n d i j a b count size D : ℕ} {as : List Act}

/-- Every page cut into blocks has one that is handed out. -/
def Busy (owner : ℕ → Option Owner) (s : State) : Prop :=
  ∀ p d, owner p = some (.small d) → countPage (s.freeList d) p < totalBlock d

def Inv (init : BitmapT) (s : State) : Prop := ∃ owner, Layout init owner s ∧ Busy owner s

section Calls

theorem idx_page (D : ℕ) : idx (D * PAGE_SIZE) = D := by
  unfold idx PAGE_SIZE
  omega

theorem getArenaBlock_eq (ha : (s.arena p).desc = some d) (hi : i < totalBlock d) :
    getArenaBlock (p * PAGE_SIZE) i s = .next (blockAddr p d i, s) := by
  unfold getArenaBlock
  rw [peek_bind, idx_page, lift_bind ha, assert_bind (decide_eq_true hi)]
  rfl

theorem listPush_eq (hb : b ∉ s.freeList d) :
    listPush d b s = .next ((), s.setList d (b :: s.freeList d)) := by
  unfold listPush
  rw [peek_bind, assert_bind (by simpa using hb)]
  rfl

/-- A new block is put on the list. -/
theorem pushBlock_eq (ha : (s.arena p).desc = some d) (hi : i < totalBlock d)
    (hb : blockAddr p d i ∉ s.freeList d) :
    pushBlock (p * PAGE_SIZE) i s =
      .next ((), s.setList d (blockAddr p d i :: s.freeList d)) := by
  unfold pushBlock
  rw [bind_of_next (getArenaBlock_eq ha hi), peek_bind, idx_page, lift_bind ha, peek_bind,
    assert_bind (by simpa using hb), bind_of_next (listPush_eq hb), peek_bind]
  simp [Code.assert, Outcome.assert, State.setList]

/-- The blocks of a new page are put on the list one after the other. -/
theorem pushBlocks_eq (ha : (s.arena D).desc = some d) (hempty : s.freeList d = []) :
    loop (pushBlock (D * PAGE_SIZE)) (totalBlock d) 0 s =
      .next ((), s.setList d (blocks D d (totalBlock d))) := by
  have hturn : ∀ j, 0 ≤ j → j < 0 + totalBlock d →
      pushBlock (D * PAGE_SIZE) j (s.setList d (blocks D d j)) =
        .next ((), s.setList d (blocks D d (j + 1))) := by
    intro j _ hj
    have hj' : j < totalBlock d := by omega
    rw [pushBlock_eq (s := s.setList d (blocks D d j)) ha hj']
    · simp [State.setList, blocks_succ]
    · simp only [State.setList, update_self]
      intro hmem
      obtain ⟨i, hi, he⟩ := mem_blocks.mp hmem
      have := (blockAddr_inj hj' (by omega) he).2
      omega
  have hstart : s = s.setList d (blocks D d 0) := by
    have : update s.freeList d [] = s.freeList := by rw [← hempty, update_eq_self]
    simp [State.setList, blocks, this]
  have := loop_eq (fun j => s.setList d (blocks D d j)) (totalBlock d) 0 hturn
  rw [Nat.zero_add, ← hstart] at this
  exact this

/-- A block is taken off the list of its page. -/
theorem removeBlock_eq (ha : (s.arena p).desc = some d) (hi : i < totalBlock d)
    (hnd : (s.freeList d).Nodup) (hb : blockAddr p d i ∈ s.freeList d) :
    removeBlock (p * PAGE_SIZE) i s =
      .next ((), s.setList d ((s.freeList d).erase (blockAddr p d i))) := by
  unfold removeBlock
  rw [bind_of_next (getArenaBlock_eq ha hi), peek_bind, idx_page, lift_bind ha, peek_bind,
    assert_bind (by simpa using hb), poke_bind, peek_bind]
  have := hnd.not_mem_erase (a := blockAddr p d i)
  simp [Code.assert, Outcome.assert, State.setList, this]

/-- All blocks of a page are taken off their list. -/
theorem removeBlocks_eq (ha : (s.arena p).desc = some d) (hnd : (s.freeList d).Nodup)
    (hall : ∀ i < totalBlock d, blockAddr p d i ∈ s.freeList d) :
    loop (removeBlock (p * PAGE_SIZE)) (totalBlock d) 0 s = .next ((), s.setList d
      ((s.freeList d).filter fun b => b ∉ blocks p d (totalBlock d))) := by
  have hturn : ∀ j, 0 ≤ j → j < 0 + totalBlock d →
      removeBlock (p * PAGE_SIZE) j
          (s.setList d ((s.freeList d).filter fun b => b ∉ blocks p d j)) =
        .next ((), s.setList d ((s.freeList d).filter fun b => b ∉ blocks p d (j + 1))) := by
    intro j _ hj
    have hj' : j < totalBlock d := by omega
    have hnot : blockAddr p d j ∉ blocks p d j := by
      intro hmem
      obtain ⟨i, hi, he⟩ := mem_blocks.mp hmem
      have := (blockAddr_inj hj' (by omega) he).2
      omega
    rw [removeBlock_eq (s := s.setList d ((s.freeList d).filter fun b => b ∉ blocks p d j)) ha hj']
    · have hnext : ((s.freeList d).filter fun b => b ∉ blocks p d j).erase (blockAddr p d j) =
          (s.freeList d).filter fun b => b ∉ blocks p d (j + 1) := by
        rw [(hnd.filter _).erase_eq_filter, List.filter_filter]
        refine List.filter_congr fun b _ => ?_
        rw [blocks_succ]
        by_cases hx : b = blockAddr p d j <;> simp [hx]
      simp only [State.setList, update_self, update_idem, hnext]
    · simpa [State.setList] using hnd.filter _
    · simpa [State.setList] using ⟨hall j hj', hnot⟩
  have hstart : s = s.setList d ((s.freeList d).filter fun b => b ∉ blocks p d 0) := by
    simp [State.setList, blocks]
  have := loop_eq (fun j => s.setList d ((s.freeList d).filter fun b => b ∉ blocks p d j))
    (totalBlock d) 0 hturn
  rw [Nat.zero_add, ← hstart] at this
  exact this

theorem takeBlock_eq (h : Layout init owner s) {l : List ℕ} (hl : s.freeList d = b :: l) :
    takeBlock d s = .next (b, { s with
      arena := update s.arena (idx b) ⟨some d, countPage l (idx b), 0, ONIX_MAGIC⟩
      freeList := update s.freeList d l }) := by
  obtain ⟨i, hb⟩ := h.free_page (d := d) (b := b) (by simp [hl])
  have ha := h.header hb.owner
  have hcount : sub32 (countPage (s.freeList d) (idx b)) 1 = countPage l (idx b) := by
    rw [hl, countPage_cons, if_pos rfl]
    unfold sub32
    rw [if_pos (by omega)]
    omega
  unfold takeBlock listPop
  rw [bind_of_next (a := b) (t := s.setList d l)]
  · rw [peek_bind, assert_bind, poke_bind]
    · simp only [hb.page.2, idx_page, State.setArena, State.setList, pure_apply, ha, hcount]
    · simp [hb.page.2, idx_page, State.setList, ha]
  · rw [peek_bind, hl]
    rfl

end Calls

section Malloc

/-- `kmalloc` of more than 1024 bytes. -/
theorem kmallocLarge_all (h : Inv init s) (hn : 1024 < size) (hmax : size ≤ 2 ^ 31) :
    All (fun r => Inv init { r.2 with live := (r.1, size) :: r.2.live }) (kmallocLarge size s) := by
  obtain ⟨owner, h, hbusy⟩ := h
  unfold kmallocLarge
  dsimp only
  rw [divRoundUp_eq hmax]
  refine all_bind ((alloc_all h (pages_pos size)).mono ?_)
  intro r ⟨D, bits, he, hD, hbits⟩
  subst he
  dsimp only
  rw [bind_of_next (clearPages_eq { s with m := s.m.setKernelBits bits } h hD rfl), poke_bind,
    idx_page]
  refine ⟨_, h.malloc_large hD hn hbits, fun p d hp => ?_⟩
  unfold give at hp
  split_ifs at hp
  · simp at hp
  · exact hbusy p d hp

/-- A page cut into blocks, if the list is empty. -/
theorem newArena_all (h : Layout init owner s) (hbusy : Busy owner s) (hd : d < DESC_COUNT)
    (hempty : s.freeList d = []) :
    All (fun r => ∃ owner' D, Layout init owner' r.2 ∧ Unowned init owner D 1 ∧
      r.2.freeList d = blocks D d (totalBlock d) ∧
      ∀ p d', owner' p = some (.small d') → p ≠ D → countPage (r.2.freeList d') p < totalBlock d')
      (newArena d s) := by
  unfold newArena
  refine all_bind ((alloc_all h (by omega)).mono ?_)
  intro r ⟨D, bits, he, hD, hbits⟩
  subst he
  dsimp only
  rw [bind_of_next (clearPages_eq { s with m := s.m.setKernelBits bits } h hD rfl), poke_bind,
    idx_page]
  rw [pushBlocks_eq (by simp [State.setArena]) (by exact hempty)]
  refine ⟨_, D, h.new_arena hD hd hempty hbits, hD, update_self .., fun p d' hp hne => ?_⟩
  rw [give_out (by omega)] at hp
  dsimp only [State.setArena, State.setList]
  obtain rfl | hdd := eq_or_ne d' d
  · rw [update_self, countPage_eq_zero]
    · exact Nat.lt_of_le_of_lt (Nat.zero_le _) (hbusy p d' hp)
    · intro b hb
      obtain ⟨i, hi, rfl⟩ := mem_blocks.mp hb
      rw [(blockAddr_self hi).1]
      exact hne.symm
  · rw [update_of_ne hdd]
    exact hbusy p d' hp

/-- The first block of the list is handed out. -/
theorem takeBlock_all {l : List ℕ} (h : Layout init owner s) (hl : s.freeList (descFor size) = b :: l)
    (hn : size ≤ 1024)
    (hbusy : ∀ p d, owner p = some (.small d) → p ≠ idx b → countPage (s.freeList d) p < totalBlock d) :
    All (fun r => Inv init { r.2 with live := (r.1, size) :: r.2.live })
      (takeBlock (descFor size) s) := by
  rw [takeBlock_eq h hl]
  have htake := h.take hl hn rfl
  refine ⟨owner, htake, fun p d hp => ?_⟩
  dsimp only
  obtain rfl | hpb := eq_or_ne p (idx b)
  · obtain ⟨i, hb⟩ := h.free_page (d := descFor size) (b := b) (by simp [hl])
    obtain rfl : descFor size = d := by simpa using hb.owner.symm.trans hp
    rw [update_self]
    -- the block itself has left the list
    have hle : countPage (s.freeList (descFor size)) (idx b) ≤ totalBlock (descFor size) := by
      unfold countPage
      rw [List.countP_eq_length_filter, ← length_blocks (idx b) (descFor size)
        (totalBlock (descFor size))]
      refine (List.subperm_of_subset ((h.lists _).filter _) fun c hc => ?_).length_le
      obtain ⟨hc, he⟩ := List.mem_filter.mp hc
      obtain ⟨j, hj⟩ := h.free_page hc
      have he : idx c = idx b := by simpa using he
      exact mem_blocks.mpr ⟨j, hj.lt, he ▸ hj.eq⟩
    rw [hl, countPage_cons, if_pos rfl] at hle
    omega
  · have := hbusy p d hp hpb
    obtain rfl | hdd := eq_or_ne d (descFor size)
    · rw [hl, countPage_cons, if_neg (Ne.symm hpb)] at this
      rwa [update_self]
    · rwa [update_of_ne hdd]

theorem kmalloc_all (h : Inv init s) (hmax : size ≤ 2 ^ 31) :
    All (fun r => Inv init { r.2 with live := (r.1, size) :: r.2.live }) (kmalloc size s) := by
  unfold kmalloc
  split_ifs with hn
  · exact kmallocLarge_all h hn hmax
  · obtain ⟨owner, h, hbusy⟩ := h
    have hn : size ≤ 1024 := Nat.le_of_not_lt hn
    rw [peek_bind]
    dsimp only
    split_ifs with hempty
    · refine all_bind ((newArena_all h hbusy (descFor_lt size) hempty).mono ?_)
      intro ⟨_, s₁⟩ ⟨owner', D, h₁, _, hl, hbusy'⟩
      dsimp only at h₁ hl hbusy' ⊢
      have hpos : 0 < totalBlock (descFor size) := by
        have : ∀ d < DESC_COUNT, 0 < totalBlock d := by decide
        exact this _ (descFor_lt size)
      obtain ⟨m, hm⟩ := Nat.exists_eq_succ_of_ne_zero hpos.ne'
      rw [hm, blocks_succ] at hl
      refine takeBlock_all h₁ hl hn fun p d hp hne => hbusy' p d hp ?_
      rwa [(blockAddr_self (by omega)).1] at hne
    · obtain ⟨b, l, hl⟩ := List.exists_cons_of_ne_nil hempty
      exact takeBlock_all h hl hn fun p d hp _ => hbusy p d hp

end Malloc

section Free

/-- `kfree` of a block. -/
theorem kfreeSmall_all (h : Layout init owner s) (hbusy : Busy owner s) (hq : (q, n) ∈ s.live)
    (hn : n ≤ 1024) :
    All (fun r => Inv init { r.2 with live := s.live.erase (q, n) }) (kfreeSmall (getBlockArena q) q s) := by
  obtain ⟨p, i, hb⟩ := h.block q n hq hn
  have ha := h.header hb.owner
  have hput := h.put hq hn rfl
  have hlt := hbusy p _ hb.owner
  have hmax := totalBlock_le (descFor n)
  have hcount : (countPage (s.freeList (descFor n)) p + 1) % 2 ^ 32 =
      countPage (q :: s.freeList (descFor n)) p := by
    rw [countPage_cons, if_pos hb.page.1, Nat.mod_eq_of_lt (by omega)]
  have hnot : q ∉ s.freeList (descFor n) := fun hmem => (h.free _ q hmem).2 n hq
  unfold kfreeSmall
  rw [hb.page.2, peek_bind, idx_page, lift_bind (a := descFor n) (by rw [ha]),
    bind_of_next (listPush_eq hnot), poke_bind]
  rw [hb.page.1] at hput
  simp only [ha, hcount, State.setList, State.setArena]
  split_ifs with hfull
  · have hlist : update s.freeList (descFor n) (q :: s.freeList (descFor n)) (descFor n) =
        q :: s.freeList (descFor n) := update_self ..
    have hnd : (q :: s.freeList (descFor n)).Nodup := List.nodup_cons.mpr ⟨hnot, h.lists _⟩
    have hplace : ∀ c ∈ q :: s.freeList (descFor n), ∃ j, IsBlock owner (idx c) (descFor n) j c :=
      fun c hc => hput.free_page (d := descFor n) (by dsimp only; rwa [hlist])
    have hall : ∀ j < totalBlock (descFor n),
        blockAddr p (descFor n) j ∈ q :: s.freeList (descFor n) := by
      intro j hj
      refine full_of_count hnd (fun c hc he => ?_) hfull hj
      obtain ⟨k, hk⟩ := hplace c hc
      exact ⟨k, hk.lt, he ▸ hk.eq⟩
    have hfilter : ((q :: s.freeList (descFor n)).filter fun c =>
        c ∉ blocks p (descFor n) (totalBlock (descFor n))) =
        (q :: s.freeList (descFor n)).filter fun c => idx c ≠ p := by
      refine List.filter_congr fun c hc => ?_
      have : c ∈ blocks p (descFor n) (totalBlock (descFor n)) ↔ idx c = p := by
        rw [mem_blocks]
        constructor
        · rintro ⟨j, hj, rfl⟩
          exact (blockAddr_self hj).1
        · intro he
          obtain ⟨j, hj⟩ := hplace c hc
          exact ⟨j, hj.lt, he ▸ hj.eq⟩
      simp [this]
    rw [bind_of_next (removeBlocks_eq (s := { s with
        arena := update s.arena p ⟨some (descFor n), countPage (q :: s.freeList (descFor n)) p, 0,
          ONIX_MAGIC⟩
        freeList := update s.freeList (descFor n) (q :: s.freeList (descFor n)) })
      (by simp) (by dsimp only; rwa [hlist]) (by dsimp only; rwa [hlist]))]
    dsimp only [State.setList]
    rw [hlist, hfilter]
    obtain ⟨bits, hfree, hbits⟩ := freeKpage_eq (D := p) { s with
        arena := update s.arena p ⟨some (descFor n), countPage (q :: s.freeList (descFor n)) p, 0,
          ONIX_MAGIC⟩
        freeList := update (update s.freeList (descFor n) (q :: s.freeList (descFor n))) (descFor n)
          ((q :: s.freeList (descFor n)).filter fun c => idx c ≠ p) } hput Nat.one_pos
      (fun p' h₁ h₂ => by
        obtain rfl : p' = p := by omega
        rw [hb.owner]
        rfl) rfl
    rw [hfree]
    have hdrop := hput.drop hb.owner (by dsimp only; rw [hlist]; exact hfull) hbits
    dsimp only at hdrop
    rw [hlist] at hdrop
    refine ⟨_, hdrop, fun p' d hp' => ?_⟩
    have hne : p' ≠ p := by
      rintro rfl
      rw [give_in (Nat.le_refl p') (by omega)] at hp'
      cases hp'
    rw [give_out (by omega)] at hp'
    dsimp only
    rw [update_idem]
    obtain rfl | hdd := eq_or_ne d (descFor n)
    · rw [update_self]
      refine Nat.lt_of_le_of_lt ?_ (hbusy p' _ hp')
      rw [List.filter_cons_of_neg (by simpa using hb.page.1)]
      exact List.Sublist.countP_le List.filter_sublist
    · rw [update_of_ne hdd]
      exact hbusy p' d hp'
  · refine ⟨owner, hput, fun p' d hp' => ?_⟩
    dsimp only
    obtain rfl | hdd := eq_or_ne d (descFor n)
    · rw [update_self]
      obtain rfl | hpp := eq_or_ne p' p
      · rw [countPage_cons, if_pos hb.page.1] at hfull ⊢
        omega
      · rw [countPage_cons, if_neg (by rw [hb.page.1]; exact hpp.symm)]
        exact hbusy p' _ hp'
    · rw [update_of_ne hdd]
      exact hbusy p' d hp'

theorem kfree_all (h : Inv init s) (hq : (q, n) ∈ s.live) :
    All (fun r => Inv init { r.2 with live := s.live.erase (q, n) }) (kfree q s) := by
  obtain ⟨owner, h, hbusy⟩ := h
  rcases Nat.lt_or_ge 1024 n with hn | hn
  · obtain ⟨hmod, hrange, ha⟩ := h.large q n hq hn
    have hpage : getBlockArena q = idx q * PAGE_SIZE := by
      unfold getBlockArena idx PAGE_SIZE at *
      omega
    have hq0 : q ≠ 0 := by
      rintro rfl
      simp at hmod
    obtain ⟨bits, hfree, hbits⟩ := freeKpage_eq s h (pages_pos n)
      (fun p h₁ h₂ => by rw [hrange p h₁ h₂]; rfl) rfl
    unfold kfree
    rw [assert_bind (by simpa using hq0)]
    dsimp only
    rw [hpage, peek_bind, idx_page, assert_bind (by simp [ha]), assert_bind (by simp [ha]),
      if_pos (by simp [ha]), ha]
    dsimp only
    rw [hfree]
    refine ⟨_, h.free_large hq hn hbits, fun p d hp => ?_⟩
    unfold give at hp
    split_ifs at hp
    exact hbusy p d hp
  · obtain ⟨p, i, hb⟩ := h.block q n hq hn
    have ha := h.header hb.owner
    have hq0 : q ≠ 0 := by
      have := hb.bounds.1
      omega
    unfold kfree
    rw [assert_bind (by simpa using hq0)]
    dsimp only
    rw [peek_bind, hb.page.2, idx_page, assert_bind (by simp [ha]), assert_bind (by simp [ha]),
      if_neg (by simp [ha]), ← hb.page.2]
    exact kfreeSmall_all h hbusy hq hn

end Free

section Runs

/-- The memory that a pointer keeps from everybody else. -/
def extent (n : ℕ) : ℕ := if n ≤ 1024 then blockSize (descFor n) else n

theorem le_extent (n : ℕ) : n ≤ extent n ∧ 0 < extent n := by
  have := blockSize_ge (descFor n)
  unfold extent
  split_ifs with hn
  · exact ⟨descFor_le hn, by omega⟩
  · exact ⟨Nat.le_refl n, by omega⟩

/-- Whose an address is: its page is taken, and not for a header there. -/
theorem Layout.extent_page (h : Layout init owner s) (hq : (q, n) ∈ s.live) (ha : q ≤ a)
    (ha' : a < q + extent n) : (owner (idx a)).isSome ∧ getBlockArena q + ARENA_SIZE ≤ a ∧
      (n ≤ 1024 → idx a = idx q) ∧ (1024 < n → owner (idx a) = some (.large q)) := by
  unfold extent at ha'
  split_ifs at ha' with hn
  · obtain ⟨p, i, hb⟩ := h.block q n hq hn
    obtain ⟨h₁, h₂⟩ := hb.bounds
    have hp : idx a = p := by
      unfold idx PAGE_SIZE at *
      omega
    refine ⟨by rw [hp, hb.owner]; rfl, ?_, fun _ => hp.trans hb.page.1.symm, fun h => by omega⟩
    rw [hb.page.2]
    unfold ARENA_SIZE
    omega
  · obtain ⟨hmod, hrange, -⟩ := h.large q n hq (by omega)
    have hle := pages_le n
    have ho : owner (idx a) = some (.large q) := by
      apply hrange
      · exact Nat.div_le_div_right ha
      · unfold idx PAGE_SIZE at *
        omega
    refine ⟨by rw [ho]; rfl, ?_, fun h => absurd h hn, fun _ => ho⟩
    unfold getBlockArena ARENA_SIZE
    unfold PAGE_SIZE at *
    omega

/-- A page of `kernel_map`. -/
theorem Layout.test (h : Layout init owner s) (hlo : 256 ≤ p) (hhi : p < 4096) :
    bitmapTest s.m.kernelMap p = some (init.bits.bit (p - 256) || (owner p).isSome) := by
  obtain ⟨hfits, hoff, hlen⟩ := h.fits
  have htest := bitmapTest_eq (k := p - 256) hfits (by omega)
  rw [hoff, Nat.add_sub_cancel' hlo] at htest
  rw [htest, h.bit, Nat.sub_add_cancel hlo]

theorem Layout.taken (h : Layout init owner s) (ho : (owner p).isSome) :
    bitmapTest s.m.kernelMap p = some true := by
  obtain ⟨h₁, h₂, -⟩ := h.fresh p ho
  rw [h.test h₁ h₂, ho, Bool.or_true]

theorem Layout.clear (h : Layout init owner s) (hD : Unowned init owner D count) (hp : D ≤ p)
    (hp' : p < D + count) : bitmapTest s.m.kernelMap p = some false := by
  obtain ⟨hlo, hhi, hnone⟩ := hD
  obtain ⟨ho, hbit⟩ := hnone p hp hp'
  rw [h.test (by omega) (by omega), ho, hbit]
  rfl

/-- No address is kept for two pointers. -/
theorem Layout.extent_unique {m : ℕ} (h : Layout init owner s) (hp : (p, n) ∈ s.live)
    (hq : (q, m) ∈ s.live) (ha : p ≤ a) (ha' : a < p + extent n) (hb : q ≤ a)
    (hb' : a < q + extent m) : p = q := by
  obtain ⟨-, -, hsmall, hlarge⟩ := h.extent_page hp ha ha'
  obtain ⟨-, -, hsmall', hlarge'⟩ := h.extent_page hq hb hb'
  rcases Nat.lt_or_ge 1024 n with hn | hn <;> rcases Nat.lt_or_ge 1024 m with hm | hm
  · have := (hlarge hn).symm.trans (hlarge' hm)
    simpa using this
  · obtain ⟨p', i, hbl⟩ := h.block q m hq hm
    have := hlarge hn
    rw [hsmall' hm, hbl.page.1, hbl.owner] at this
    simp at this
  · obtain ⟨p', i, hbl⟩ := h.block p n hp hn
    have := hlarge' hm
    rw [hsmall hn, hbl.page.1, hbl.owner] at this
    simp at this
  · obtain ⟨p₁, i, hbl⟩ := h.block p n hp hn
    obtain ⟨p₂, j, hbl'⟩ := h.block q m hq hm
    unfold extent at ha' hb'
    rw [if_pos hn] at ha'
    rw [if_pos hm] at hb'
    exact (hbl.unique hbl' ha ha' hb hb').1

/-- A free block is apart from the memory of every pointer. -/
theorem Layout.extent_free (h : Layout init owner s) (hq : (q, n) ∈ s.live)
    (hb : b ∈ s.freeList d) : q + n ≤ b ∨ b + NODE_SIZE ≤ q := by
  obtain ⟨i, hbl⟩ := h.free_page hb
  have hsize := blockSize_ge d
  have hle := le_extent n
  by_contra hmeet
  push Not at hmeet
  unfold NODE_SIZE at hmeet
  -- an address in both
  obtain ⟨a, ha⟩ : ∃ a, a = max b q := ⟨_, rfl⟩
  have h₁ : b ≤ a ∧ a < b + blockSize d := by omega
  have h₂ : q ≤ a ∧ a < q + extent n := by omega
  obtain ⟨-, -, hsmall, hlarge⟩ := h.extent_page hq h₂.1 h₂.2
  have hpa : idx a = idx b := by
    obtain ⟨h₃, h₄⟩ := hbl.bounds
    unfold idx PAGE_SIZE at *
    omega
  rcases Nat.lt_or_ge 1024 n with hn | hn
  · have := hlarge hn
    rw [hpa, hbl.owner] at this
    simp at this
  · obtain ⟨p, j, hbl'⟩ := h.block q n hq hn
    have h₃ := h₂.2
    unfold extent at h₃
    rw [if_pos hn] at h₃
    obtain ⟨rfl, -⟩ := hbl.unique hbl' h₁.1 h₁.2 h₂.1 h₃
    exact (h.free d b hb).2 n hq

/-- No header is in the memory of a pointer. -/
theorem Layout.extent_header (h : Layout init owner s) (hq : (q, n) ∈ s.live)
    (hp : p * PAGE_SIZE < q + n ∧ q < p * PAGE_SIZE + ARENA_SIZE) :
    (∀ d, owner p ≠ some (.small d)) ∧ ∀ q' m, (q', m) ∈ s.live → 1024 < m → idx q' ≠ p := by
  have hle := le_extent n
  obtain ⟨a, ha⟩ : ∃ a, a = max q (p * PAGE_SIZE) := ⟨_, rfl⟩
  obtain ⟨-, hfar, hsmall, hlarge⟩ := h.extent_page (a := a) hq (by omega) (by omega)
  have hpa : idx a = p := by
    unfold idx
    unfold PAGE_SIZE ARENA_SIZE at *
    omega
  rw [hpa] at hsmall hlarge
  have hbase : getBlockArena q = idx q * PAGE_SIZE := by
    unfold getBlockArena idx PAGE_SIZE
    omega
  rw [hbase] at hfar
  -- the header of the arena that the pointer itself is in lies below
  have hne : p ≠ idx q := by
    intro he
    rw [← he] at hfar
    unfold ARENA_SIZE at *
    omega
  have hn : 1024 < n := by
    by_contra hn
    exact hne (hsmall (Nat.le_of_not_lt hn))
  refine ⟨fun d hd => ?_, fun q' m hq' hm he => ?_⟩
  · rw [hlarge hn] at hd
    simp at hd
  · have ho := (h.large q' m hq' hm).2.1 (idx q') (Nat.le_refl _)
      (by have := pages_pos m; omega)
    rw [he, hlarge hn] at ho
    obtain rfl : q = q' := by simpa using ho
    exact hne he.symm

/-- The owner of a pointer may put anything in the memory there. -/
theorem fill_all (h : Inv init s) (hq : (q, n) ∈ s.live) (f : ℕ → ArenaT) :
    All (fun r => Inv init r.2) (store q (q + n) f s) := by
  obtain ⟨owner, h, hbusy⟩ := h
  rw [store_eq f fun d b hb => h.extent_free hq hb]
  refine ⟨owner, ⟨h.map, h.covers, h.bit, h.fresh, fun p d hp => ?_, fun q' m hq' hm => ?_, h.owned,
    h.block, h.free, h.all, h.lists, h.live⟩, hbusy⟩
  · refine ⟨(h.small p d hp).1, ?_⟩
    dsimp only
    rw [if_neg, h.header hp]
    · rfl
    · exact fun hhit => (h.extent_header hq hhit).1 d hp
  · obtain ⟨h₁, h₂, h₃⟩ := h.large q' m hq' hm
    refine ⟨h₁, h₂, ?_⟩
    dsimp only
    rw [if_neg, h₃]
    exact fun hhit => (h.extent_header hq hhit).2 q' m hq' hm rfl

theorem exec_inv (h : Inv init s) (a : Act) : All (Inv init) (exec s a) := by
  unfold exec
  cases a with
  | malloc size =>
    refine all_guard fun hmax => all_andThen ((kmalloc_all h (of_decide_eq_true hmax)).mono ?_)
    exact fun r hr => hr
  | free ptr =>
    dsimp only
    cases hf : s.live.find? fun e => e.1 == ptr with
    | none => trivial
    | some e =>
      obtain ⟨q, n⟩ := e
      obtain rfl : q = ptr := by simpa using List.find?_some hf
      exact all_andThen ((kfree_all h (List.mem_of_find?_eq_some hf)).mono fun r hr => hr)
  | fill ptr f =>
    dsimp only
    cases hf : s.live.find? fun e => e.1 == ptr with
    | none => trivial
    | some e =>
      obtain ⟨q, n⟩ := e
      obtain rfl : q = ptr := by simpa using List.find?_some hf
      exact all_andThen ((fill_all h (List.mem_of_find?_eq_some hf) f).mono fun r hr => hr)

theorem inv_init (h₀ : Init s₀) : Inv s₀.m.kernelMap s₀ := by
  refine ⟨fun _ => none, ⟨rfl, ⟨h₀.size, h₀.length, h₀.offset⟩, fun k => by simp, nofun, nofun,
    fun q n hq => ?_, nofun, fun q n hq => ?_, fun d b hb => ?_, fun p d i b hb => ?_, fun d => ?_,
    ?_⟩, nofun⟩
  · simp [h₀.live] at hq
  · simp [h₀.live] at hq
  · simp [h₀.lists] at hb
  · exact absurd hb.owner (by simp)
  · simp [h₀.lists]
  · simp [h₀.live]

theorem inv_run (h₀ : Init s₀) (h : Run Step s₀ as s) : Inv s₀.m.kernelMap s :=
  h.invariant (fun _ a _ hi hs => (exec_inv hi a).of_next hs) (inv_init h₀)

/-- Where nothing is handed out no page is taken. -/
theorem Layout.unowned (h : Layout init owner s) (hbusy : Busy owner s) (hlive : s.live = []) (p : ℕ) :
    owner p = none := by
  cases ho : owner p with
  | none => rfl
  | some o =>
    cases o with
    | small d =>
      obtain ⟨i, hi, hnot⟩ := exists_of_count (hbusy p d ho)
      rcases h.all p d i _ ⟨ho, hi, rfl⟩ with hfree | ⟨n, hn⟩
      · exact absurd hfree hnot
      · simp [hlive] at hn
    | large q =>
      obtain ⟨n, hn, -⟩ := h.owned p q ho
      simp [hlive] at hn

/-- After any calls and stores: the memory of different pointers is disjoint, in pages that
are taken in `kernel_map`, and apart from every header; each page of blocks counts those of
them that are on the list; no assertion fails; and where everything has been freed
`kernel_map` is as it was. -/
theorem arenas (h₀ : Init s₀) (h : Run Step s₀ as s) :
    ((s.live.map Prod.fst).Nodup ∧ ∀ p n q m, (p, n) ∈ s.live → (q, m) ∈ s.live → p ≠ q →
      ∀ a, p ≤ a → a < p + n → ¬ (q ≤ a ∧ a < q + m)) ∧
    (∀ p n, (p, n) ∈ s.live → ∀ a, p ≤ a → a < p + n →
      bitmapTest s.m.kernelMap (idx a) = some true) ∧
    (∀ p n q m, (p, n) ∈ s.live → (q, m) ∈ s.live → ∀ a, p ≤ a → a < p + n →
      ¬ (getBlockArena q ≤ a ∧ a < getBlockArena q + ARENA_SIZE)) ∧
    (∀ p d, (∃ b ∈ s.freeList d, idx b = p) ∨
        (∃ q n, (q, n) ∈ s.live ∧ n ≤ 1024 ∧ descFor n = d ∧ idx q = p) →
      (s.arena p).desc = some d ∧ (s.arena p).count = countPage (s.freeList d) p) ∧
    (∀ a, exec s a ≠ .failed) ∧
    (s.live = [] → s.m.kernelMap = s₀.m.kernelMap ∧ ∀ d, s.freeList d = []) := by
  have hi := inv_run h₀ h
  refine ⟨?_, fun p n hp a ha ha' => ?_, fun p n q m hp hq a ha ha' hb => ?_, fun p d hpd => ?_,
    fun a => (exec_inv hi a).ne_failed, fun hlive => ?_⟩
  all_goals obtain ⟨owner, hl, hbusy⟩ := hi
  · refine ⟨hl.live, fun p n q m hp hq hne a ha ha' hb => hne ?_⟩
    have hn := (le_extent n).1
    have hm := (le_extent m).1
    exact hl.extent_unique hp hq ha (by omega) hb.1 (by omega)
  · have hn := (le_extent n).1
    exact hl.taken (hl.extent_page hp ha (by omega)).1
  · have hbase : getBlockArena q = idx q * PAGE_SIZE := by
      unfold getBlockArena idx PAGE_SIZE
      omega
    rw [hbase] at hb
    obtain ⟨hsmall, hlarge⟩ := hl.extent_header (p := idx q) hp ⟨by omega, by omega⟩
    rcases Nat.lt_or_ge 1024 m with hm | hm
    · exact hlarge q m hq hm rfl
    · obtain ⟨p', i, hbl⟩ := hl.block q m hq hm
      exact hsmall _ (hbl.page.1 ▸ hbl.owner)
  · have howner : owner p = some (.small d) := by
      rcases hpd with ⟨b, hb, rfl⟩ | ⟨q, n, hq, hn, rfl, rfl⟩
      · obtain ⟨i, hbl⟩ := hl.free_page hb
        exact hbl.owner
      · obtain ⟨p', i, hbl⟩ := hl.block q n hq hn
        exact hbl.page.1 ▸ hbl.owner
    rw [hl.header howner]
    exact ⟨rfl, rfl⟩
  · have hnone := hl.unowned hbusy hlive
    have hbits : s.m.kernelMap.bits = s₀.m.kernelMap.bits := ext_bit fun k => by
      rw [hl.bit, hnone, Option.isSome_none, Bool.or_false]
    refine ⟨hl.map.trans (by rw [hbits]), fun d => ?_⟩
    apply List.eq_nil_iff_forall_not_mem.mpr
    intro b hb
    obtain ⟨i, hbl⟩ := hl.free_page hb
    have := hbl.owner
    rw [hnone] at this
    cases this

/-- No page of the kernel is taken. -/
def start : State where
  m := {
    page _ _ := Memory.zeroEntry
    memoryMap _ := 0
    startPage := 0
    totalPages := 4096
    freePages := 0
    kernelMap := bitmapMake (fun _ => 0) 480 480 256
    cr3 := 0
    tasks _ := none
    running := 0 }
  arena _ := zeroArena
  freeList _ := []
  live := []

theorem init_start : Init start := ⟨by decide, rfl, rfl, fun _ => rfl, rfl⟩

/-- A block and three pages, which their owner fills; the block is freed and taken again. -/
def mallocAndFree : List Act :=
  [.malloc 1000, .malloc 10000, .fill 0x101010 (fun _ => ⟨some 3, 7, 1, 0⟩), .free 0x100810,
    .malloc 1024]

theorem arenas_mallocAndFree : ∃ s, Run Step start mallocAndFree s ∧
    s.live = [(0x100810, 1024), (0x101010, 10000)] ∧
    (s.arena 0x100).count = countPage (s.freeList 6) 0x100 := by
  obtain ⟨s, hs, hp⟩ := run_of_play (fun _ _ => True) exec start mallocAndFree
    (fun s => s.live == [(0x100810, 1024), (0x101010, 10000)]) (by decide +kernel)
  have hlive : s.live = [(0x100810, 1024), (0x101010, 10000)] := by simpa using hp
  have h := arenas init_start hs.of_guarded
  refine ⟨s, hs.of_guarded, hlive, (h.2.2.2.1 0x100 6 (.inr ⟨0x100810, 1024, ?_, ?_⟩)).2⟩
  · simp [hlive]
  · decide

end Runs

end Onix.Arena
