import Onix.Spec.Tlb
import Onix.Sanity.MemoryTask

/-! What the memory and the kept translations have to be like for `copy_page`, and
what one call of it does to them. -/

namespace Onix.Tlb

open Function Code Memory Outcome

variable {s t : State} {m : Memory.State} {page vaddr a b f g src : ℕ}

section Env

/-- The current directory has the kernel's part, the frames of its tables and of
the pages that they map are user memory, and the tables are counted. -/
structure Env (m : Memory.State) : Prop where
  counts : Counts m
  dir : Dir m (idx m.cr3)
  table : ∀ i, 4 ≤ i → i < 1023 → (m.page (idx m.cr3) i).present = true →
    4096 ≤ (m.page (idx m.cr3) i).index.toNat ∧
      m.memoryMap (m.page (idx m.cr3) i).index.toNat ≠ 0
  user : ∀ i, 4 ≤ i → i < 1023 → (m.page (idx m.cr3) i).present = true → ∀ j < 1024,
    (m.page (m.page (idx m.cr3) i).index.toNat j).present = true →
      4096 ≤ (m.page (m.page (idx m.cr3) i).index.toNat j).index.toNat

theorem env_of_layout {sp : Spaces} {u d : ℕ} (h : Layout m sp) (hc : idx m.cr3 = d)
    (hsp : sp u = some (d, 1023)) : Env m := by
  obtain ⟨hdir, -⟩ := h.dir u d 1023 hsp
  subst hc
  refine ⟨h.counts, hdir, fun i h4 hlt hp => ?_, fun i h4 hlt hp j hj hpj => ?_⟩
  · obtain ⟨hge, -, hone, -⟩ := h.table u i _ (table_of_present hsp h4 hlt hp)
    exact ⟨hge, by omega⟩
  · have hpage : (i * 1024 + j) / 1024 = i ∧ (i * 1024 + j) % 1024 = j := by omega
    have hmap : (m.cow sp).map u (i * 1024 + j) =
        some ((m.page (m.page (idx m.cr3) i).index.toNat j).index.toNat,
          (m.page (m.page (idx m.cr3) i).index.toNat j).write) := by
      rw [cow_map hsp, hpage.1, if_pos ⟨h4, hlt⟩]
      unfold State.entryAt
      rw [hpage.1, hpage.2, if_pos hp, if_pos hpj]
      rfl
    exact (h.used _ ⟨(u, i * 1024 + j), _, hmap⟩).1

/-- Every state of the memory that is reached is such an environment. -/
theorem Env.of_inv (h : Inv m) : Env m := by
  have hkernel : idx m.cr3 = 1 → Env m := by
    intro hc
    obtain ⟨hdir, hnone⟩ := h.layout.kernelDir
    refine ⟨h.layout.counts, by rw [hc]; exact hdir, fun i h4 hlt hp => ?_,
      fun i h4 hlt hp => ?_⟩ <;>
    · rw [hc, hnone i h4 hlt] at hp
      exact absurd hp (by decide)
  cases htask : m.tasks m.running with
  | none =>
    apply hkernel
    rw [h.idle htask]
    decide
  | some task =>
    have hc := h.cr3 task htask
    cases hv : task.vmap with
    | none =>
      apply hkernel
      rw [hc, h.kernelTask m.running task htask hv]
    | some map =>
      refine env_of_layout h.layout (u := m.running) (d := idx task.pde) (by rw [hc]) ?_
      exact spaces_some htask hv

theorem Source.cases (h : Source page) :
    (4 ≤ didx page ∧ didx page < 1023) ∨ (didx page = 1023 ∧ 4 ≤ tidx page ∧ tidx page < 1023) := by
  obtain ⟨-, hp⟩ := h
  simp only [tableAddr, PDE_MASK, PAGE_SIZE, KERNEL_MEMORY_SIZE, USER_STACK_TOP,
    KERNEL_PAGE_TABLE, List.length_cons, List.length_nil] at hp
  unfold didx tidx
  omega

/-- No source shares a page with the addresses that `copy_page` itself goes through. -/
theorem Source.idx_ne (h : Source page) :
    idx page ≠ idx 0 ∧ idx page ≠ idx 0xfffff000 ∧ idx page ≠ idx (tableAddr 0) := by
  obtain ⟨-, hp⟩ := h
  simp only [tableAddr, PDE_MASK, PAGE_SIZE, KERNEL_MEMORY_SIZE, USER_STACK_TOP,
    KERNEL_PAGE_TABLE, List.length_cons, List.length_nil] at hp
  unfold idx tableAddr PDE_MASK PAGE_SIZE
  omega

theorem Env.walk_source (h : Env m) (hs : Source page) (hw : m.walk page = some f) : 4096 ≤ f := by
  obtain hp | ⟨hd, hge, hlt⟩ := hs.cases
  · unfold State.walk at hw
    dsimp only at hw
    split_ifs at hw with h1 h2
    obtain rfl := Option.some.inj hw
    exact h.user _ hp.1 hp.2 h1 _ (Nat.mod_lt _ (by decide)) h2
  · rw [walk_of_present (t := idx m.cr3) (by rw [hd, h.dir.self]; rfl)
      (by rw [hd, h.dir.self_index])] at hw
    split_ifs at hw with h1
    obtain rfl := Option.some.inj hw
    exact (h.table _ hge hlt h1).1

/-- The entry of page 0 matters to no source. -/
theorem Env.walk_entry (h : Env m) (hs : Source page) (e : PageEntryT) :
    (m.setEntry 2 0 e).walk page = m.walk page := by
  have hd2 : idx m.cr3 ≠ 2 := by
    have := h.dir.ne
    omega
  have hrow : (m.setEntry 2 0 e).page (idx m.cr3) = m.page (idx m.cr3) := by
    rw [page_setEntry, update_of_ne hd2]
  have hcr3 : (m.setEntry 2 0 e).cr3 = m.cr3 := rfl
  unfold State.walk
  dsimp only
  rw [hcr3, hrow]
  by_cases h1 : (m.page (idx m.cr3) (didx page)).present = true
  · have ht : (m.page (idx m.cr3) (didx page)).index.toNat ≠ 2 := by
      obtain hp | ⟨hd, -, -⟩ := hs.cases
      · have := (h.table _ hp.1 hp.2 h1).1
        omega
      · rw [hd, h.dir.self_index]
        exact hd2
    rw [if_pos h1, if_pos h1, page_setEntry, update_of_ne ht]
  · rw [if_neg h1, if_neg h1]

theorem Env.take (h : Env m) (hf : m.firstFree = some f) : Env (m.take f) := by
  obtain ⟨-, -, h0⟩ := h.counts.firstFree hf
  refine ⟨h.counts.take hf, h.dir.congr rfl, fun i h4 hlt hp => ?_, h.user⟩
  obtain ⟨hge, hne⟩ := h.table i h4 hlt hp
  refine ⟨hge, ?_⟩
  have hif : (m.page (idx m.cr3) i).index.toNat ≠ f := by
    intro he
    rw [he] at hne
    exact hne h0
  have : (m.take f).memoryMap (m.page (idx m.cr3) i).index.toNat =
      m.memoryMap (m.page (idx m.cr3) i).index.toNat := update_of_ne hif _ _
  exact fun he => hne (this.symm.trans he)

theorem Env.copied (h : Env m) (hf : m.firstFree = some f) (src : ℕ) : Env (m.copied f src) := by
  obtain ⟨hge, -, h0⟩ := h.counts.firstFree hf
  have ht := h.take hf
  have hd := h.dir.lt
  have hpage : ∀ g, g ≠ f → g ≠ 2 → (m.copied f src).page g = m.page g := by
    intro g hgf hg2
    unfold State.copied
    rw [page_setEntry, update_of_ne hg2, page_setPage, update_of_ne hgf]
    rfl
  have hrow : (m.copied f src).page (idx m.cr3) = m.page (idx m.cr3) := by
    have := h.dir.ne
    exact hpage _ (by omega) (by omega)
  refine ⟨⟨ht.counts.start, ht.counts.total, ht.counts.kernel, ht.counts.free⟩, h.dir.congr hrow,
    fun i h4 hlt hp => ?_, fun i h4 hlt hp j hj hpj => ?_⟩
  · change ((m.copied f src).page (idx m.cr3) i).present = true at hp
    change 4096 ≤ ((m.copied f src).page (idx m.cr3) i).index.toNat ∧
      (m.take f).memoryMap ((m.copied f src).page (idx m.cr3) i).index.toNat ≠ 0
    rw [hrow] at hp ⊢
    exact ht.table i h4 hlt hp
  · change ((m.copied f src).page (idx m.cr3) i).present = true at hp
    change ((m.copied f src).page ((m.copied f src).page (idx m.cr3) i).index.toNat j).present =
      true at hpj
    change 4096 ≤
      ((m.copied f src).page ((m.copied f src).page (idx m.cr3) i).index.toNat j).index.toNat
    rw [hrow] at hp hpj ⊢
    obtain ⟨hge', hne⟩ := h.table i h4 hlt hp
    rw [hpage _ (by rintro he; exact hne (by rw [he]; exact h0)) (by omega)] at hpj ⊢
    exact h.user i h4 hlt hp j hj hpj

end Env

section Good

/-- Every translation in use is as `copy_page` needs it, and every copy so far is one. -/
structure Good (s : State) : Prop where
  env : Env s.mem
  pde : ∀ f, s.tlb (idx 0xfffff000) = some f → f = idx s.mem.cr3
  table : ∀ f, s.tlb (idx (tableAddr 0)) = some f → f = 2
  source : ∀ page f, Source page → s.tlb (idx page) = some f → 4096 ≤ f
  copies : ∀ c ∈ s.copies, c.result = c.source

/-- Address 0 is translated afresh, or to the frame that is taken next. -/
def Fresh (s : State) : Prop :=
  s.tlb (idx 0) = none ∨ s.tlb (idx 0) = s.mem.firstFree

theorem good_start (h : Env m) : Good (start m) :=
  ⟨h, fun _ hf => (by cases hf), fun _ hf => (by cases hf), fun _ _ _ hf => (by cases hf),
    fun _ hc => (by cases hc)⟩

theorem translate_keep (h : idx a ≠ idx b) : (s.keep b g).translate a = s.translate a := by
  unfold State.translate State.keep
  dsimp only
  rw [update_of_ne h]

theorem frame_eq (h : s.translate a = some f) : frame a s = .next (f, s.keep a f) := by
  unfold frame
  rw [peek_bind, lift_bind h]
  rfl

theorem onMem_bind {α β : Type} {n : Code Memory.State α} {k : α → Code State β} {r : α}
    {m' : Memory.State} (h : n s.mem = .next (r, m')) :
    (onMem n >>= k) s = k r (s.withMem m') := by
  apply bind_of_next
  unfold onMem
  rw [h]
  rfl

theorem Good.translate_pde (h : Good s) : s.translate 0xfffff000 = some (idx s.mem.cr3) := by
  unfold State.translate
  cases hk : s.tlb (idx 0xfffff000) with
  | some f => rw [h.pde f hk]; rfl
  | none =>
    have hw := h.env.dir.walk_table rfl (i := 1023) (by decide)
    rw [h.env.dir.self_index, if_pos (by rw [h.env.dir.self]; rfl)] at hw
    exact hw

theorem Good.translate_table (h : Good s) : s.translate (tableAddr 0) = some 2 := by
  have h0 := h.env.dir.kernel 0 (by decide)
  unfold State.translate
  cases hk : s.tlb (idx (tableAddr 0)) with
  | some f => rw [h.table f hk]; rfl
  | none =>
    have hw := h.env.dir.walk_table rfl (i := 0) (by decide)
    rw [h0, if_pos (by rfl), entryInit_index (by decide)] at hw
    exact hw

theorem Good.withMem (h : Good s) (he : Env m) (hc : m.cr3 = s.mem.cr3) : Good (s.withMem m) :=
  ⟨he, fun f hf => (h.pde f hf).trans (by rw [← hc]; rfl), h.table, h.source, h.copies⟩

theorem getPte_zero (h : Good s) : getPte 0 s =
    .next (2, (s.keep 0xfffff000 (idx s.mem.cr3)).keep (tableAddr 0) 2) := by
  have h0 : s.mem.page (idx s.mem.cr3) (didx 0) = entryInit 2 := h.env.dir.kernel 0 (by decide)
  have ht : (s.keep 0xfffff000 (idx s.mem.cr3)).translate (tableAddr (didx 0)) = some 2 :=
    (translate_keep (by decide)).trans h.translate_table
  unfold getPte
  rw [bind_of_next (frame_eq h.translate_pde), peek_bind]
  change (assert (s.mem.page (idx s.mem.cr3) (didx 0)).present >>= _) _ = _
  rw [assert_bind (by rw [h0]; rfl), frame_eq ht]
  rfl

/-- The translations that `copy_page(page)` leaves. -/
def State.through (s : State) (f page src : ℕ) : State :=
  (((s.keep 0xfffff000 (idx s.mem.cr3)).keep (tableAddr 0) 2).keep 0 f).keep page src

theorem Good.source_ge (h : Good s) (hs : Source page) (hsrc : s.translate page = some src) :
    4096 ≤ src := by
  unfold State.translate at hsrc
  cases hk : s.tlb (idx page) with
  | some g =>
    rw [hk] at hsrc
    exact h.source page src hs (hk.trans hsrc)
  | none =>
    rw [hk] at hsrc
    exact h.env.walk_source hs hsrc

/-- Address 0, between the two changes of its entry. -/
theorem Good.translate_zero (h : Good s) (hf : s.mem.firstFree = some f) (h0 : Fresh s) :
    (((s.keep 0xfffff000 (idx s.mem.cr3)).keep (tableAddr 0) 2).withMem
      ((s.mem.take f).setEntry 2 (tidx 0) (entryInit f))).translate 0 = some f := by
  obtain ⟨-, hlt, -⟩ := h.env.counts.firstFree hf
  have hw := (h.env.take hf).dir.walk_zero rfl (lt_of_lt_of_le hlt h.env.counts.total.2)
  have hk : ((s.keep 0xfffff000 (idx s.mem.cr3)).keep (tableAddr 0) 2).tlb (idx 0) =
      s.tlb (idx 0) := by
    unfold State.keep
    dsimp only
    rw [update_of_ne (by decide), update_of_ne (by decide)]
  unfold State.translate State.withMem
  dsimp only
  rw [hk, hw]
  obtain h0 | h0 := h0
  · rw [h0]; rfl
  · rw [h0, hf]; rfl

/-- The source, between the two changes of the entry of address 0. -/
theorem Good.translate_source (h : Good s) (hf : s.mem.firstFree = some f) (hs : Source page)
    (e : PageEntryT) :
    ((((s.keep 0xfffff000 (idx s.mem.cr3)).keep (tableAddr 0) 2).withMem
      ((s.mem.take f).setEntry 2 (tidx 0) e)).keep 0 g).translate page = s.translate page := by
  obtain ⟨hi0, hi1, hi2⟩ := hs.idx_ne
  have hk : ((s.keep 0xfffff000 (idx s.mem.cr3)).keep (tableAddr 0) 2).tlb (idx page) =
      s.tlb (idx page) := by
    unfold State.keep
    dsimp only
    rw [update_of_ne hi2, update_of_ne hi1]
  rw [translate_keep hi0]
  unfold State.translate State.withMem
  dsimp only
  rw [hk]
  congr 1
  exact (h.env.take hf).walk_entry hs e

/-- One call of `copy_page` that translates address 0 afresh. -/
theorem copyPage_eq (h : Good s) (hs : Source page) (hsrc : s.translate page = some src)
    (hf : s.mem.firstFree = some f) (h0 : Fresh s) :
    copyPage page s =
      .next (pageAddr f, (s.through f page src).withMem (s.mem.copied f src)) := by
  obtain ⟨hge, hlt, -⟩ := h.env.counts.firstFree hf
  have hlt20 : f < 2 ^ 20 := lt_of_lt_of_le hlt h.env.counts.total.2
  have hget : getOnePage s.mem = .next (pageAddr f, s.mem.take f) := by
    rw [getOnePage_eq, hf]
  have hsrc2 := h.source_ge hs hsrc
  have hpte := getPte_zero (h.withMem (h.env.take hf) rfl)
  have hdst := h.translate_zero hf h0
  have hsrc' := (h.translate_source (g := f) hf hs (entryInit f)).trans hsrc
  unfold copyPage
  rw [onMem_bind hget]
  change (getPte 0 >>= _) (s.withMem (s.mem.take f)) = _
  rw [bind_of_next hpte, onMem_bind (poke_apply _), idx_pageAddr hlt20]
  change (frame 0 >>= _) (((s.keep 0xfffff000 (idx s.mem.cr3)).keep (tableAddr 0) 2).withMem
      ((s.mem.take f).setEntry 2 (tidx 0) (entryInit f))) = _
  rw [bind_of_next (frame_eq hdst), bind_of_next (frame_eq hsrc'), onMem_bind (poke_apply _),
    onMem_bind (poke_apply _), pure_apply, ← copied_eq (f := f) (by omega) (by omega)]
  rfl

end Good

end Onix.Tlb
