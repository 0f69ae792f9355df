import Onix.Sanity.TlbInv
import Onix.Proofs.Memory

/-! `copy_page` goes through one mapping of address 0 and does not flush it: the
copies are right as long as address 0 is not in use when one starts. -/

namespace Onix.Tlb

open Function Code Memory Outcome

variable {s t : State} {m : Memory.State} {page a f : ℕ} {act : Act} {as : List Act}

/-- The rest of the kernel leaves memory as `copy_page` needs it. -/
def Step (s : State) (act : Act) (t : State) : Prop :=
  match act with
  | .copy page => Source page ∧ copyCall page s = .next ((), t)
  | .flushTlb vaddr => t = { s with tlb := update s.tlb (idx vaddr) none }
  | .setCr3 pde => Env { s.mem with cr3 := pde } ∧
      t = { s with mem := { s.mem with cr3 := pde }, tlb := fun _ => none }
  | .access vaddr => ∃ f, frame vaddr s = .next (f, t)
  | .other m => Env m ∧ m.cr3 = s.mem.cr3 ∧ t = s.withMem m

/-- `copy_page` starts with address 0 not in use, or in use for the frame that it takes. -/
def Unused (s : State) : Act → Prop
  | .copy _ => Fresh s
  | _ => True

theorem frame_inv {r : ℕ × State} (h : frame a s = .next r) :
    s.translate a = some r.1 ∧ r.2 = s.keep a r.1 := by
  obtain hn | ⟨f, hf⟩ := Option.eq_none_or_eq_some (s.translate a)
  · unfold frame at h
    rw [peek_bind, hn] at h
    cases h
  · rw [frame_eq hf] at h
    obtain rfl := next.inj h
    exact ⟨hf, rfl⟩

/-- A translation is of a page. -/
theorem translate_page {b : ℕ} (h : idx a = idx b) : s.translate a = s.translate b := by
  have hd : didx a = didx b ∧ tidx a = tidx b := by
    unfold idx PAGE_SIZE at h
    unfold didx tidx
    omega
  unfold State.translate State.walk
  rw [h, hd.1, hd.2]

theorem keep_tlb {b g : ℕ} (h : (s.keep a f).tlb (idx b) = some g) (hf : s.translate a = some f) :
    s.translate b = some g := by
  unfold State.keep at h
  dsimp only at h
  obtain he | he := eq_or_ne (idx b) (idx a)
  · rw [he, update_self] at h
    rw [translate_page he, hf, h]
  · rw [update_of_ne he] at h
    unfold State.translate
    rw [h]
    rfl

/-- A translation that is put to use is one that the tables give. -/
theorem Good.keep (h : Good s) (hf : s.translate a = some f) : Good (s.keep a f) := by
  refine ⟨h.env, fun g hg => ?_, fun g hg => ?_, fun page g hs hg => ?_, h.copies⟩
  · have ht := keep_tlb hg hf
    rw [h.translate_pde] at ht
    exact (Option.some.inj ht).symm
  · have ht := keep_tlb hg hf
    rw [h.translate_table] at ht
    exact (Option.some.inj ht).symm
  · exact h.source_ge hs (keep_tlb hg hf)

/-- No address that matters shares page 0. -/
theorem Good.keep_zero (h : Good s) (f : ℕ) : Good (s.keep 0 f) := by
  have hsub : ∀ b g, idx b ≠ idx 0 → (s.keep 0 f).tlb (idx b) = some g → s.tlb (idx b) = some g := by
    intro b g hb hg
    unfold State.keep at hg
    dsimp only at hg
    rwa [update_of_ne hb] at hg
  exact ⟨h.env, fun g hg => h.pde g (hsub _ g (by decide) hg),
    fun g hg => h.table g (hsub _ g (by decide) hg),
    fun page g hs hg => h.source page g hs (hsub page g hs.idx_ne.1 hg), h.copies⟩

theorem Good.through {src : ℕ} (h : Good s) (hs : Source page) (hsrc : s.translate page = some src)
    (f : ℕ) : Good (s.through f page src) := by
  obtain ⟨hi0, hi1, hi2⟩ := hs.idx_ne
  have h1 := h.keep h.translate_pde
  have h2 := h1.keep h1.translate_table
  apply (h2.keep_zero f).keep
  rw [translate_keep hi0, translate_keep hi2, translate_keep hi1, hsrc]

theorem Good.flush (h : Good s) (v : ℕ) : Good { s with tlb := update s.tlb v none } := by
  have hsub : ∀ b g, update s.tlb v none b = some g → s.tlb b = some g := by
    intro b g hg
    obtain rfl | hb := eq_or_ne b v
    · rw [update_self] at hg
      cases hg
    · rwa [update_of_ne hb] at hg
  exact ⟨h.env, fun g hg => h.pde g (hsub _ g hg), fun g hg => h.table g (hsub _ g hg),
    fun page g hs hg => h.source page g hs (hsub _ g hg), h.copies⟩

/-- What a call of `copy_page` returns is a copy, where it finds address 0 unused. -/
theorem good_copy (h : Good s) (hs : Source page) (h0 : Fresh s)
    (hstep : copyCall page s = .next ((), t)) : Good t := by
  unfold copyCall contents at hstep
  obtain ⟨r, hr, hstep⟩ := andThen_eq_next.mp hstep
  obtain hn | ⟨src, hsrc⟩ := Option.eq_none_or_eq_some (s.translate page)
  · rw [peek_bind, hn] at hr
    cases hr
  rw [peek_bind, hsrc] at hr
  obtain rfl := next.inj hr
  cases hf : s.mem.firstFree with
  | none =>
    have hget : onMem getOnePage s = .refused := by
      unfold onMem
      rw [getOnePage_eq, hf]
      rfl
    dsimp only at hstep
    unfold copyPage at hstep
    rw [bind_apply, bind_apply, hget] at hstep
    cases hstep
  | some f =>
    obtain ⟨hge, hlt, -⟩ := h.env.counts.firstFree hf
    have hpage : (s.mem.copied f src).page f = s.mem.page src := by
      unfold State.copied
      rw [page_setEntry, update_of_ne (by omega), page_setPage, update_self]
    dsimp only at hstep
    rw [bind_of_next (copyPage_eq h hs hsrc hf h0), poke_apply,
      idx_pageAddr (lt_of_lt_of_le hlt h.env.counts.total.2)] at hstep
    obtain rfl := congrArg Prod.snd (next.inj hstep)
    have hmem := (h.through hs hsrc f).withMem (h.env.copied hf src) rfl
    refine ⟨hmem.env, hmem.pde, hmem.table, hmem.source, fun c hc => ?_⟩
    obtain rfl | hc := List.mem_cons.mp hc
    · exact hpage
    · exact h.copies c hc

/-- One step of a run in which `copy_page` finds address 0 unused. -/
theorem good_step (h : Good s) (hstep : Guarded Unused Step s act t) : Good t := by
  obtain ⟨h0, hstep⟩ := hstep
  cases act with
  | copy page => exact good_copy h hstep.1 h0 hstep.2
  | flushTlb vaddr =>
    obtain rfl := hstep
    exact h.flush (idx vaddr)
  | setCr3 pde =>
    obtain ⟨he, rfl⟩ := hstep
    exact ⟨he, fun _ hf => (by cases hf), fun _ hf => (by cases hf), fun _ _ _ hf => (by cases hf),
      h.copies⟩
  | access vaddr =>
    obtain ⟨f, hf⟩ := hstep
    obtain ⟨htr, hk⟩ := frame_inv hf
    dsimp only at hk htr
    obtain rfl := hk
    exact h.keep htr
  | other m =>
    obtain ⟨he, hc, rfl⟩ := hstep
    exact h.withMem he hc

/-- Every frame that `copy_page` has returned held what its source page held, in every
run in which address 0 is not in use when it starts. -/
theorem copies_hold (h : Env m) (hrun : Run (Guarded Unused Step) (start m) as s) :
    ∀ c ∈ s.copies, c.result = c.source :=
  (hrun.invariant (fun _ _ _ hg hstep => good_step hg hstep) (good_start h)).copies

/-- A process with a page of heap and a page of stack: two page tables. -/
def twoTables : List Memory.Act :=
  [.create 1, .dispatch 0, .toUser, .brk 0x1001000 0, .store 0x1000000 zeroEntry,
    .store 0x7fff000 zeroEntry]

theorem copies_hold_twoTables : ∃ m s, Env m ∧ Run (Guarded Unused Step) (start m)
      [.copy (tableAddr 4), .setCr3 m.cr3, .copy (tableAddr 31)] s ∧
    s.copies.length = 2 ∧ ∀ c ∈ s.copies, c.result = c.source := by
  obtain ⟨m, hm, hp⟩ := run_of_play (Called false) exec
    (boot KERNEL_MEMORY_SIZE fun _ _ => zeroEntry) twoTables
    (fun m => (copyCall (tableAddr 4) (start m)).Ends fun r => r.2.mem.cr3 == m.cr3 &&
      (copyCall (tableAddr 31) { r.2 with tlb := fun _ => none }).Ends fun r =>
        r.2.copies.length == 2) (by decide +kernel)
  obtain ⟨⟨⟨⟩, s₁⟩, h₁, hp⟩ := ends_eq_true.mp hp
  rw [Bool.and_eq_true, beq_iff_eq] at hp
  obtain ⟨hcr3, hp⟩ := hp
  obtain ⟨⟨⟨⟩, s₂⟩, h₂, hlen⟩ := ends_eq_true.mp hp
  have he : Env m := Env.of_inv (run_inv (inv_boot _ (Nat.le_refl _) (by decide)) hm)
  have hfirst : Guarded Unused Step (start m) (.copy (tableAddr 4)) s₁ :=
    ⟨Or.inl rfl, by decide, h₁⟩
  have he₁ : Env { s₁.mem with cr3 := m.cr3 } := by
    rw [← hcr3]
    exact (good_step (good_start he) hfirst).env
  have hset : Guarded Unused Step s₁ (.setCr3 m.cr3)
      ⟨{ s₁.mem with cr3 := m.cr3 }, fun _ => none, s₁.copies⟩ := ⟨trivial, he₁, rfl⟩
  have hsecond : Guarded Unused Step ⟨{ s₁.mem with cr3 := m.cr3 }, fun _ => none, s₁.copies⟩
      (.copy (tableAddr 31)) s₂ := by
    refine ⟨Or.inl rfl, by decide, ?_⟩
    rw [← hcr3]
    exact h₂
  have hrun := Run.snoc (Run.snoc (Run.single hfirst) hset) hsecond
  exact ⟨m, s₂, he, hrun, beq_iff_eq.mp hlen, copies_hold he hrun⟩

/-- The second table that `copy_pde` copies goes to the frame of the first. -/
theorem copies_stale : ¬ ∀ acts m, Run (Guarded (Called false) Memory.Step)
      (boot KERNEL_MEMORY_SIZE fun _ _ => zeroEntry) acts m →
    ∀ as s, Run Step (start m) as s → ∀ c ∈ s.copies, c.result = c.source := by
  intro h
  obtain ⟨m, hm, hp⟩ := run_of_play (Called false) exec
    (boot KERNEL_MEMORY_SIZE fun _ _ => zeroEntry) twoTables
    (fun m => (copyCall (tableAddr 4) (start m)).Ends fun r =>
      (copyCall (tableAddr 31) r.2).Ends fun r =>
        r.2.copies.any fun c => c.result 1023 != c.source 1023) (by decide +kernel)
  obtain ⟨⟨⟨⟩, s₁⟩, h₁, hp⟩ := ends_eq_true.mp hp
  obtain ⟨⟨⟨⟩, s₂⟩, h₂, hany⟩ := ends_eq_true.mp hp
  obtain ⟨c, hc, hne⟩ := List.any_eq_true.mp hany
  have hrun : Run Step (start m) [.copy (tableAddr 4), .copy (tableAddr 31)] s₂ :=
    Run.snoc (Run.single ⟨by decide, h₁⟩) ⟨by decide, h₂⟩
  rw [h twoTables m hm _ s₂ hrun c hc, bne_self_eq_false] at hne
  cases hne

end Onix.Tlb
