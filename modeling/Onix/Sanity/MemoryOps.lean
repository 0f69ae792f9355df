import Onix.Sanity.MemoryShare

/-! `alloc_kpage`, `copy_pde` and `get_pte` on a laid-out memory. -/

namespace Onix.Memory

open Function Code Bytes Outcome

variable {s s' s₀ : State} {sp : Spaces} {t p q d D hi i k f g T v n count : ℕ}

section KernelPages

/-- The state with other bits in `kernel_map`. -/
def State.setKernelBits (s : State) (bits : Bytes) : State :=
  { s with kernelMap := { s.kernelMap with bits := bits } }

theorem allocKpage_spec
    (hmap : s.kernelMap.Fits ∧ s.kernelMap.offset = 256 ∧ s.kernelMap.length = 480)
    (hc : 0 < count) :
    All (fun r => ∃ D bits, 256 ≤ D ∧ D + count ≤ 4096 ∧ r = (pageAddr D, s.setKernelBits bits) ∧
        s.kernelMap.bits.Clear (D - 256) count ∧
        ∀ j, bits.bit j =
          if D - 256 ≤ j ∧ j < D - 256 + count then true else s.kernelMap.bits.bit j)
      (allocKpage count s) := by
  obtain ⟨hfits, hoff, hlen⟩ := hmap
  unfold allocKpage
  rw [assert_bind (decide_eq_true hc), peek_bind]
  dsimp only [id]
  rcases bitmapScan_spec hfits hc with ⟨b, bits, hrun, he, hbits⟩ | ⟨-, he⟩
  · have hle := hrun.le
    rw [hlen] at hle
    rw [lift_bind he]
    dsimp only
    rw [if_neg (by unfold EOF; omega), poke_bind, pure_apply]
    refine ⟨b + 256, bits, by omega, by omega, ?_, ?_, fun j => ?_⟩
    · rw [show b + 256 = b + s.kernelMap.offset by omega]
      rfl
    · rw [Nat.add_sub_cancel]
      exact hrun.clear
    · rw [Nat.add_sub_cancel]
      exact hbits j
  · rw [lift_bind he]
    dsimp only
    rw [if_pos rfl]
    trivial

theorem resetPages_spec {map map' : BitmapT} (index n i : ℕ)
    (h : resetPages map index n i = some map') :
    map'.size = map.size ∧ map'.length = map.length ∧ map'.offset = map.offset ∧
      ∀ j, ¬ (index + i ≤ j + map.offset ∧ j + map.offset < index + i + n) →
        map'.bits.bit j = map.bits.bit j := by
  induction n generalizing map i with
  | zero =>
    obtain rfl := Option.some.inj h
    exact ⟨rfl, rfl, rfl, fun _ _ => rfl⟩
  | succ n ih =>
    rw [resetPages] at h
    split at h
    · split at h
      · rename_i m hset
        obtain ⟨h1, h2, h3, h4⟩ := ih _ h
        unfold bitmapSet at hset
        dsimp only at hset
        split_ifs at hset with ho
        obtain rfl := Option.some.inj hset
        refine ⟨h1, h2, h3, fun j hj => ?_⟩
        dsimp only at h4
        rw [h4 j (by omega), bit_setBit, if_neg (by omega)]
      · simp at h
    · simp at h

/-- Only `kernel_map` changes, and the pages of directories stay taken. -/
theorem Layout.setKernelBits (h : Layout s sp) (bits : Bytes)
    (hb : ∀ t d hi, sp t = some (d, hi) → bits.bit (d - 256) = true) :
    Layout (s.setKernelBits bits) sp ∧ (s.setKernelBits bits).cow sp = s.cow sp := by
  obtain ⟨h1, hm⟩ := h.congr (s.setKernelBits bits)
    ⟨h.counts.start, h.counts.total, h.counts.kernel, h.counts.free⟩ rfl
    ⟨⟨h.map.1.size, h.map.1.index⟩, h.map.2⟩ hb rfl (fun _ _ _ _ => rfl)
    (fun _ _ _ _ => ⟨rfl, rfl⟩) fun _ _ => rfl
  exact ⟨h1, rfl⟩

end KernelPages

section CopyTable

/-- The state in `copy_pde` before directory entry `k`: space `q` shows what
space `p` shows below it. -/
structure Copying (s₀ s : State) (sp : Spaces) (p q d D k : ℕ) : Prop where
  layout : Layout s (update sp q (some (D, k)))
  map : (s.cow (update sp q (some (D, k)))).map =
    ((s₀.cow sp).share p q {v | v / 1024 < k}).map
  data : ∀ f, Used s₀ sp f → s.page f = s₀.page f
  dir : ∀ i, k ≤ i → i < 1023 → s.page D i = s.page d i
  tasks : s.tasks = s₀.tasks
  running : s.running = s₀.running
  cr3 : s.cr3 = s₀.cr3

theorem sharable (h : Layout s sp) (hdom : ∀ t, sp t ≠ none → t < NR_TASKS)
    (hp : sp p = some (d, hi)) (hk4 : 4 ≤ k) (hk : k < hi) (hpres : (s.page d k).present = true)
    (hT : (s.page d k).index.toNat = T) : Sharable s T := by
  have hmem : ∀ j < 1024, (s.page T j).present = true →
      (p, k * 1024 + j) ∈ (s.cow sp).uses (s.page T j).index.toNat := by
    intro j hj hpj
    have hdiv : (k * 1024 + j) / 1024 = k := by omega
    have hmod : (k * 1024 + j) % 1024 = j := by omega
    refine ⟨(s.page T j).write, ?_⟩
    rw [cow_map hp, hdiv, if_pos ⟨hk4, hk⟩,
      entryAt_of_table (T := T) (by rw [hdiv]; exact hpres) (by rw [hdiv]; exact hT), hmod,
      if_pos hpj, Option.map_some]
  have hfst : ∀ f, ∀ x ∈ (s.cow sp).uses f, x.1 ∈ Finset.range NR_TASKS := by
    rintro f ⟨t, v⟩ ⟨b, hb⟩
    refine Finset.mem_range.mpr (hdom t fun hnone => ?_)
    rw [cow_map_none hnone] at hb
    exact absurd hb (by simp)
  refine ⟨fun j hj hpj => ⟨h.cow.pos (hmem j hj hpj), ?_⟩, fun i hi j hj hpi hpj he => ?_⟩
  · have := h.cow.count_le (Finset.range NR_TASKS) (hfst _) ⟨_, hmem j hj hpj⟩
    rw [Finset.card_range] at this
    unfold NR_TASKS at this
    omega
  · have hx := hmem i hi hpi
    rw [he] at hx
    have : k * 1024 + i = k * 1024 + j := h.cow.aligned _ _ hx _ (hmem j hj hpj)
    omega

theorem shared_ge (s : State) (T n g : ℕ) : s.memoryMap g ≤ (s.shared T n).memoryMap g := by
  unfold State.shared
  dsimp only
  split_ifs <;> omega

theorem counts_shared (h : Counts s) (hs : Sharable s T) : Counts (s.shared T 1024) := by
  refine ⟨h.start, h.total, fun i hi => Nat.le_trans (h.kernel i hi) (shared_ge s T 1024 i), ?_⟩
  have hz : zeros (s.shared T 1024).memoryMap s.totalPages = zeros s.memoryMap s.totalPages := by
    refine zeros_congr fun i _ => ⟨fun h0 => ?_, fun h0 => ?_⟩
    · have := shared_ge s T 1024 i
      omega
    · unfold State.shared
      dsimp only
      rw [if_neg, h0]
      rintro ⟨j, hj, hpj, he⟩
      have := (hs.pos j hj hpj).1
      rw [he] at this
      omega
  have := h.free
  show s.freePages + s.startPage = zeros (s.shared T 1024).memoryMap s.totalPages + 4096
  omega

/-- One turn of the outer loop of `copy_pde`. -/
theorem copyTable_spec {pde : ℕ} (hD : idx pde = D) (h : Copying s₀ s sp p q d D k)
    (hdom : ∀ t, update sp q (some (D, k)) t ≠ none → t < NR_TASKS) (hpq : p ≠ q)
    (hp : sp p = some (d, 1023)) (hq : sp q = none) (hcr3 : idx s₀.cr3 = d) (hk4 : 4 ≤ k)
    (hk : k < 1023) :
    All (fun r => Copying s₀ r.2 sp p q d D (k + 1)) (copyTable pde k s) := by
  have hl := h.layout
  have hp' : update sp q (some (D, k)) p = some (d, 1023) := by rw [update_of_ne hpq, hp]
  have hq' : update sp q (some (D, k)) q = some (D, k) := update_self _ _ _
  have hdir := (hl.dir p d 1023 hp').1
  have hd256 := (hl.dir p d 1023 hp').2.1
  have hDir := (hl.dir q D k hq').1
  have hD256 := (hl.dir q D k hq').2.1
  have hdlt := hdir.lt
  have hDlt := hDir.lt
  have htotal := hl.counts.total
  have hc : idx s.cr3 = d := by rw [h.cr3, hcr3]
  have hdD : d ≠ D := by
    rintro rfl
    exact hpq (hl.dir_inj p q d 1023 k hp' hq')
  have hsame := h.dir k (Nat.le_refl k) hk
  have hset : {v : ℕ | v / 1024 < k} ∪ pagesOf k = {v | v / 1024 < k + 1} := by
    ext v
    simp only [Set.mem_union, Set.mem_ofPred_eq, pagesOf]
    omega
  have hidem : update (update sp q (some (D, k))) q (some (D, k + 1)) =
      update sp q (some (D, k + 1)) := update_idem _ _ _
  have hjoin : ((s.cow (update sp q (some (D, k)))).share p q (pagesOf k)).map =
      ((s₀.cow sp).share p q {v | v / 1024 < k + 1}).map := by
    rw [Cow.map_share_congr h.map, Cow.map_share_share, hset]
  unfold copyTable
  rw [peek_bind, hD, hsame]
  by_cases hpres : (s.page d k).present = true
  · rw [if_pos hpres]
    obtain ⟨T, hT⟩ : ∃ T, (s.page d k).index.toNat = T := ⟨_, rfl⟩
    have hsh := sharable hl hdom hp' hk4 hk hpres hT
    have htT : Table s (update sp q (some (D, k))) p k T := hT ▸ table_of_present hp' hk4 hk hpres
    obtain ⟨hTge, hTlt, -, -⟩ := hl.table p k T htT
    have hcounts := counts_shared hl.counts hsh
    have hne : ∀ g, g ≠ T → (s.shared T 1024).page g = s.page g := fun g hg => update_of_ne hg _ _
    have hselfT : (s.shared T 1024).page T = protect (s.page T) 1024 := update_self _ _ _
    have hdir1 : Dir (s.shared T 1024) d := hdir.congr (hne d (by omega))
    have hfree : ∀ f, (s.shared T 1024).firstFree = some f →
        Spare s (update sp q (some (D, k))) f := by
      intro f hf
      obtain ⟨hge, hlt, h0⟩ := hcounts.firstFree hf
      have := shared_ge s T 1024 f
      exact hl.spare_of_zero hge hlt (by omega)
    have hsrc : ∀ e, ((s.shared T 1024).setEntry 2 0 e).walk (tableAddr k) = some T := by
      intro e
      have hpg : ((s.shared T 1024).setEntry 2 0 e).page d = s.page d := by
        rw [page_setEntry, update_of_ne (by omega), hne d (by omega)]
      have hw := (hdir1.congr (hpg.trans (hne d (by omega)).symm)).walk_table
        (s := (s.shared T 1024).setEntry 2 0 e) hc (i := k) (by omega)
      rwa [hpg, if_pos hpres, hT] at hw
    have hft := hdir.frame_table hc (i := k) (by omega) hpres
    rw [hT] at hft
    rw [bind_of_next hft, bind_of_next (loop_shareEntry hsh), bind_apply,
      copyPage_eq hdir1 hc hsrc (by omega) fun f hf => ?_]
    · cases hfr : (s.shared T 1024).firstFree with
      | none => trivial
      | some f =>
        have hspare := hfree f hfr
        have hfge := hspare.ge
        have hflt := hspare.lt
        dsimp only
        rw [next_andThen, poke_apply, idx_pageAddr (by omega)]
        have hDpage : ((s.shared T 1024).copied f T).page D = s.page D := by
          unfold State.copied
          rw [page_setEntry, update_of_ne (by omega), page_setPage, update_of_ne (by omega)]
          exact hne D (by omega)
        have hfT : T ≠ f := by
          rintro rfl
          exact hspare.table p k htT
        have hpages : ∀ g, g ≠ T → g ≠ f → g ≠ D → g ≠ 2 →
            (((s.shared T 1024).copied f T).setEntry D k
              { ((s.shared T 1024).copied f T).page D k with
                index := BitVec.ofNat 20 f }).page g = s.page g := by
          intro g hgT hgf hgD hg2
          rw [page_setEntry, update_of_ne hgD]
          unfold State.copied
          rw [page_setEntry, update_of_ne hg2, page_setPage, update_of_ne hgf]
          exact hne g hgT
        have hshares : Shares s (((s.shared T 1024).copied f T).setEntry D k
            { ((s.shared T 1024).copied f T).page D k with
              index := BitVec.ofNat 20 f }) D k f T := by
          refine ⟨?_, ?_, ?_, hpages, fun g => ?_, rfl, rfl⟩
          · rw [page_setEntry, update_of_ne (by omega)]
            unfold State.copied
            rw [page_setEntry, update_of_ne (by omega), page_setPage, update_of_ne hfT]
            exact hselfT
          · rw [page_setEntry, update_of_ne (by omega)]
            unfold State.copied
            rw [page_setEntry, update_of_ne (by omega), page_setPage, update_self]
            exact hselfT
          · rw [page_setEntry, update_self, hDpage]
          · show update (s.shared T 1024).memoryMap f 1 g = _
            by_cases hgf : g = f
            · subst hgf
              rw [update_self, if_pos rfl]
            · rw [update_of_ne hgf, if_neg hgf, shared_count]
        have hc3 : Counts (((s.shared T 1024).copied f T).setEntry D k
            { ((s.shared T 1024).copied f T).page D k with index := BitVec.ofNat 20 f }) := by
          have := hcounts.take hfr
          exact ⟨this.start, this.total, this.kernel, this.free⟩
        obtain ⟨h1, h2⟩ := hl.share hp' hq' hk4 hk hsame hpres hT hspare hshares hc3
        rw [hidem] at h1 h2
        refine ⟨h1, h2.trans hjoin, fun g hg => ?_, fun i hki hi => ?_, h.tasks, h.running, h.cr3⟩
        · have hq0 : ∀ v ∈ {v : ℕ | v / 1024 < k}, (s₀.cow sp).map q v = none :=
            fun v _ => cow_map_none hq
          have hused : Used s (update sp q (some (D, k))) g := by
            obtain ⟨x, hx⟩ := hg
            refine ⟨x, ?_⟩
            have := (Cow.mem_uses_share hpq hq0).mpr (Or.inl hx)
            unfold Cow.uses at this ⊢
            rwa [h.map]
          have hgge := (hl.used g hused).1
          rw [hpages g ?_ ?_ (by omega) (by omega), h.data g hg]
          · rintro rfl
            exact (hl.table p k g htT).2.2.2 hused
          · rintro rfl
            exact hspare.used hused
        · rw [page_setEntry, update_self, update_of_ne (by omega), update_of_ne hdD, hDpage,
            h.dir i (by omega) hi]
          unfold State.copied
          rw [page_setEntry, update_of_ne (by omega), page_setPage, update_of_ne (by omega)]
          exact (congrFun (hne d (by omega)) i).symm
    · have hsp := hfree f hf
      have := hsp.lt
      refine ⟨hsp.ge, by omega, ?_⟩
      rintro rfl
      exact hsp.table p k htT
  · rw [if_neg hpres]
    have hpres : (s.page d k).present = false := by simpa using hpres
    obtain ⟨h1, h2⟩ := hl.skip hp' hq' hk4 hk hsame hpres
    rw [hidem] at h1 h2
    exact ⟨h1, h2.trans hjoin, h.data, fun i hki hi => h.dir i (by omega) hi, h.tasks, h.running,
      h.cr3⟩

end CopyTable

end Onix.Memory
