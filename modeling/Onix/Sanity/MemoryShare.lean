import Onix.Sanity.MemoryInv

/-! New page tables, new page directories, and the copy of a page table whose
entries two spaces share from then on. -/

namespace Onix.Memory

open Function Code Bytes

variable {s s' : State} {sp : Spaces} {t p q d D hi i k f g T v : ℕ} {e : PageEntryT}

/-- A spare, empty frame becomes a page table. -/
theorem Layout.addTable (h : Layout s sp) (hsp : sp t = some (d, hi)) (hi4 : 4 ≤ i) (hlt : i < hi)
    (hp : (s.page d i).present = false) (hs : Spare s sp f) (hone : s.memoryMap f = 1)
    (hzero : ∀ j, (s.page f j).present = false) :
    Layout (s.setEntry d i (entryInit f)) sp ∧
      ((s.setEntry d i (entryInit f)).cow sp).map = (s.cow sp).map := by
  have htotal := h.counts.total
  have hflt := hs.lt
  have hfge := hs.ge
  have hindex : (entryInit f).index.toNat = f := entryInit_index (by omega)
  obtain ⟨hdir, hd256, hle, -⟩ := h.dir t d hi hsp
  have hdlt := hdir.lt
  have hself : (s.setEntry d i (entryInit f)).page d = update (s.page d) i (entryInit f) :=
    update_self _ _ _
  have hne : ∀ g, g ≠ d → (s.setEntry d i (entryInit f)).page g = s.page g :=
    fun g hg => update_of_ne hg _ _
  have hdirs : ∀ u d' hi' j, sp u = some (d', hi') → (u ≠ t ∨ j ≠ i) →
      (s.setEntry d i (entryInit f)).page d' j = s.page d' j := by
    intro u d' hi' j hu huj
    by_cases hd' : d' = d
    · subst hd'
      rw [hself, update_of_ne]
      rintro rfl
      exact huj.elim (fun hut => hut (h.dir_inj u t d' hi' hi hu hsp)) fun hj => hj rfl
    · rw [hne d' hd']
  have htab : ∀ u j g, Table (s.setEntry d i (entryInit f)) sp u j g ↔
      Table s sp u j g ∨ (u = t ∧ j = i ∧ g = f) := by
    intro u j g
    by_cases huj : u = t ∧ j = i
    · obtain ⟨rfl, rfl⟩ := huj
      constructor
      · rintro ⟨d', hi', hu, h4, hlt', hp', he⟩
        obtain ⟨rfl, rfl⟩ := Prod.mk.inj (Option.some.inj (hsp.symm.trans hu))
        rw [hself, update_self, hindex] at he
        exact Or.inr ⟨rfl, rfl, he.symm⟩
      · rintro (⟨d', hi', hu, h4, hlt', hp', he⟩ | ⟨-, -, rfl⟩)
        · obtain ⟨rfl, rfl⟩ := Prod.mk.inj (Option.some.inj (hsp.symm.trans hu))
          rw [hp] at hp'
          exact absurd hp' (by decide)
        · refine ⟨d, hi, hsp, hi4, hlt, ?_, ?_⟩
          · rw [hself, update_self]
            rfl
          · rw [hself, update_self, hindex]
    · have hor : u ≠ t ∨ j ≠ i := by
        by_contra hno
        exact huj ⟨by_contra fun h1 => hno (Or.inl h1), by_contra fun h2 => hno (Or.inr h2)⟩
      have hiff : Table (s.setEntry d i (entryInit f)) sp u j g ↔ Table s sp u j g := by
        constructor
        · rintro ⟨d', hi', hu, h4, hlt', hp', he⟩
          rw [hdirs u d' hi' j hu hor] at hp' he
          exact ⟨d', hi', hu, h4, hlt', hp', he⟩
        · rintro ⟨d', hi', hu, h4, hlt', hp', he⟩
          rw [← hdirs u d' hi' j hu hor] at hp' he
          exact ⟨d', hi', hu, h4, hlt', hp', he⟩
      rw [hiff]
      exact ⟨Or.inl, fun h' => h'.resolve_right fun h'' => huj ⟨h''.1, h''.2.1⟩⟩
  have hm : ((s.setEntry d i (entryInit f)).cow sp).map = (s.cow sp).map := by
    funext u w
    cases hsu : sp u with
    | none => rw [cow_map_none hsu, cow_map_none hsu]
    | some r =>
      obtain ⟨d', hi'⟩ := r
      rw [cow_map hsu, cow_map hsu]
      split_ifs with hw
      · by_cases huw : u = t ∧ w / 1024 = i
        · obtain ⟨rfl, rfl⟩ := huw
          obtain ⟨rfl, rfl⟩ := Prod.mk.inj (Option.some.inj (hsp.symm.trans hsu))
          unfold State.entryAt
          rw [hself, update_self, if_pos (entryInit_present f), hindex, hne f (by omega), hzero, hp]
          rfl
        · have hor : u ≠ t ∨ w / 1024 ≠ i := by
            by_contra hno
            exact huw ⟨by_contra fun h1 => hno (Or.inl h1), by_contra fun h2 => hno (Or.inr h2)⟩
          refine congrArg _ (entryAt_congr (hdirs u d' hi' _ hsu hor) fun hp' => ?_)
          have := (h.table u _ _ (table_of_present hsu hw.1 hw.2 hp')).1
          rw [hne _ (by omega)]
      · rfl
  have huse : ∀ g, Used (s.setEntry d i (entryInit f)) sp g ↔ Used s sp g := by
    intro g
    unfold Used Cow.uses
    rw [hm]
  have hcounts : Counts (s.setEntry d i (entryInit f)) :=
    ⟨h.counts.start, h.counts.total, h.counts.kernel, h.counts.free⟩
  refine ⟨⟨hcounts, h.map, ⟨h.kernelDir.1.congr (hne 1 (by omega)), ?_⟩,
    fun u d' hi' hu => ?_, h.dir_inj, fun u j g hg => ?_, fun u u' j j' g hg hg' => ?_,
    fun u j d' hi' hu h4 hlt' hp' => ?_, fun g hg => h.used g ((huse g).mp hg),
    h.cow.congr hm fun _ _ => rfl⟩, hm⟩
  · rw [hne 1 (by omega)]
    exact h.kernelDir.2
  · obtain ⟨h1, h2, h3, h4⟩ := h.dir u d' hi' hu
    refine ⟨⟨h1.lt, h1.ne, fun j hj => ?_, ?_⟩, h2, h3, h4⟩
    · rw [hdirs u d' hi' j hu (Or.inr (by omega))]
      exact h1.kernel j hj
    · rw [hdirs u d' hi' 1023 hu (Or.inr (by omega))]
      exact h1.self
  · rw [huse]
    rcases (htab u j g).mp hg with hg | ⟨rfl, rfl, rfl⟩
    · exact h.table u j g hg
    · exact ⟨hs.ge, hs.lt, hone, hs.used⟩
  · rcases (htab u j g).mp hg with h₁ | ⟨rfl, rfl, rfl⟩
    · rcases (htab u' j' g).mp hg' with h₂ | ⟨-, -, rfl⟩
      · exact h.table_inj u u' j j' g h₁ h₂
      · exact absurd h₁ (hs.table u j)
    · rcases (htab u' j' g).mp hg' with h₂ | ⟨rfl, rfl, -⟩
      · exact absurd h₂ (hs.table u' j')
      · exact ⟨rfl, rfl⟩
  · by_cases huj : u = t ∧ j = i
    · obtain ⟨rfl, rfl⟩ := huj
      obtain ⟨rfl, rfl⟩ := Prod.mk.inj (Option.some.inj (hsp.symm.trans hu))
      rw [hself, update_self, hindex, hne f (by omega)]
      refine ⟨rfl, fun j hj hpj => ?_⟩
      rw [hzero] at hpj
      exact absurd hpj (by decide)
    · have hor : u ≠ t ∨ j ≠ i := by
        by_contra hno
        exact huj ⟨by_contra fun h1 => hno (Or.inl h1), by_contra fun h2 => hno (Or.inr h2)⟩
      rw [hdirs u d' hi' j hu hor] at hp' ⊢
      have := (h.table u _ _ (table_of_present hu h4 hlt' hp')).1
      rw [hne _ (by omega)]
      exact h.user u j d' hi' hu h4 hlt' hp'

/-- `get_pte` makes a page table. -/
theorem Layout.newTable (h : Layout s sp) (hsp : sp t = some (d, hi)) (hi4 : 4 ≤ i) (hlt : i < hi)
    (hp : (s.page d i).present = false) (hf : s.firstFree = some f) :
    Layout (s.newTable d i f) sp ∧ ((s.newTable d i f).cow sp).map = (s.cow sp).map := by
  have hs := h.spare hf
  have hfge := hs.ge
  have hdlt := (h.dir t d hi hsp).1.lt
  obtain ⟨h1, hm1⟩ := h.take hf
  have hs1 : Spare (s.take f) sp f := by
    refine ⟨hs.ge, hs.lt, fun u j => hs.table u j, ?_⟩
    unfold Used Cow.uses
    rw [hm1]
    exact hs.used
  obtain ⟨h2, hm2⟩ := h1.setPage (fun _ => zeroEntry) (f := f) (by omega) (fun hlt => by omega)
    hs1.table
  have hne : ∀ g, g ≠ f → ((s.take f).setPage f fun _ => zeroEntry).page g = s.page g :=
    fun g hg => update_of_ne hg _ _
  have hs2 : Spare ((s.take f).setPage f fun _ => zeroEntry) sp f := by
    refine ⟨hs.ge, hs.lt, fun u j ht => ?_, ?_⟩
    · obtain ⟨d', hi', hu, h4, hlt', hp', he⟩ := ht
      have := (h.dir u d' hi' hu).1.lt
      rw [hne d' (by omega)] at hp' he
      exact hs.table u j ⟨d', hi', hu, h4, hlt', hp', he⟩
    · unfold Used Cow.uses
      rw [hm2]
      exact hs1.used
  obtain ⟨h3, hm3⟩ := h2.addTable hsp hi4 hlt (by rw [hne d (by omega)]; exact hp) hs2
    (update_self _ _ _) fun j => by
      rw [page_setPage, update_self]
      rfl
  have hcomm : ((s.take f).setPage f fun _ => zeroEntry).setEntry d i (entryInit f) =
      s.newTable d i f := by
    unfold State.newTable State.setEntry State.setPage
    dsimp only
    rw [update_of_ne (by omega : d ≠ f), update_comm (by omega : f ≠ d)]
  rw [← hcomm]
  exact ⟨h3, hm3.trans (hm2.trans hm1)⟩

/-- A fresh page directory with no user tables shows no page. -/
theorem Layout.addSpace (h : Layout s sp) (hq : sp q = none) (hD : Dir s D) (hge : 256 ≤ D)
    (hnew : ∀ t hi, sp t ≠ some (D, hi)) (hbit : s.kernelMap.bits.bit (D - 256) = true)
    (hle : k ≤ 1023) (hempty : ∀ i, 4 ≤ i → i < k → (s.page D i).present = false) :
    Layout s (update sp q (some (D, k))) ∧
      (s.cow (update sp q (some (D, k)))).map = (s.cow sp).map := by
  have hsp : ∀ u d hi, update sp q (some (D, k)) u = some (d, hi) →
      (u = q ∧ d = D ∧ hi = k) ∨ (u ≠ q ∧ sp u = some (d, hi)) := by
    intro u d hi hu
    by_cases huq : u = q
    · subst huq
      rw [update_self] at hu
      obtain ⟨rfl, rfl⟩ := Prod.mk.inj (Option.some.inj hu)
      exact Or.inl ⟨rfl, rfl, rfl⟩
    · rw [update_of_ne huq] at hu
      exact Or.inr ⟨huq, hu⟩
  have hnone : ∀ i, 4 ≤ i → i < k → (s.page D i).present ≠ true := fun i h4 hlt => by
    rw [hempty i h4 hlt]
    decide
  have htab : ∀ u i f, Table s (update sp q (some (D, k))) u i f → Table s sp u i f := by
    rintro u i f ⟨d, hi, hu, h4, hlt, hp, he⟩
    rcases hsp u d hi hu with ⟨-, rfl, rfl⟩ | ⟨-, hu⟩
    · exact absurd hp (hnone i h4 hlt)
    · exact ⟨d, hi, hu, h4, hlt, hp, he⟩
  have hm : (s.cow (update sp q (some (D, k)))).map = (s.cow sp).map := by
    funext u w
    by_cases huq : u = q
    · subst huq
      rw [cow_map (update_self _ _ _), cow_map_none hq]
      split_ifs with hw
      · unfold State.entryAt
        rw [if_neg (hnone _ hw.1 hw.2)]
        rfl
      · rfl
    · cases hsu : sp u with
      | none => rw [cow_map_none hsu, cow_map_none (by rw [update_of_ne huq, hsu])]
      | some r =>
        obtain ⟨d, hi⟩ := r
        rw [cow_map hsu, cow_map (by rw [update_of_ne huq, hsu])]
  have huse : ∀ g, Used s (update sp q (some (D, k))) g ↔ Used s sp g := by
    intro g
    unfold Used Cow.uses
    rw [hm]
  refine ⟨⟨h.counts, h.map, h.kernelDir, fun u d hi hu => ?_, fun u u' d hi hi' hu hu' => ?_,
    fun u i f hf => ?_, fun u u' i j f hf hf' => h.table_inj u u' i j f (htab _ _ _ hf) (htab _ _ _ hf'),
    fun u i d hi hu h4 hlt hp => ?_, fun f hf => h.used f ((huse f).mp hf),
    h.cow.congr hm fun _ _ => rfl⟩, hm⟩
  · rcases hsp u d hi hu with ⟨-, rfl, rfl⟩ | ⟨-, hu⟩
    · exact ⟨hD, hge, hle, hbit⟩
    · exact h.dir u d hi hu
  · rcases hsp u d hi hu with ⟨rfl, rfl, rfl⟩ | ⟨-, h₁⟩
    · rcases hsp u' d hi' hu' with ⟨rfl, -, -⟩ | ⟨-, h₂⟩
      · rfl
      · exact absurd h₂ (hnew u' hi')
    · rcases hsp u' d hi' hu' with ⟨-, rfl, -⟩ | ⟨-, h₂⟩
      · exact absurd h₁ (hnew u hi)
      · exact h.dir_inj u u' d hi hi' h₁ h₂
  · rw [huse]
    exact h.table u i f (htab u i f hf)
  · rcases hsp u d hi hu with ⟨-, rfl, rfl⟩ | ⟨-, hu⟩
    · exact absurd hp (hnone i h4 hlt)
    · exact h.user u i d hi hu h4 hlt hp

section Share

theorem protect_present (p : Page) (n j : ℕ) : (protect p n j).present = (p j).present := by
  unfold protect
  split_ifs <;> rfl

theorem protect_index (p : Page) (n j : ℕ) : (protect p n j).index = (p j).index := by
  unfold protect
  split_ifs <;> rfl

theorem protect_user (p : Page) (n j : ℕ) : (protect p n j).user = (p j).user := by
  unfold protect
  split_ifs <;> rfl

theorem protect_write (p : Page) {n j : ℕ} (hj : j < n) (hp : (p j).present = true) :
    (protect p n j).write = false := by
  unfold protect
  rw [if_pos ⟨hj, hp⟩]

/-- The pages of directory entry `k`. -/
def pagesOf (k : ℕ) : Set ℕ := {v | v / 1024 = k}

/-- What one turn of the outer loop of `copy_pde` leaves: the table `T` of entry
`k` of space `p` is write-protected and counted once more, and frame `f` is its copy
under directory `D`. -/
structure Shares (s s' : State) (D k f T : ℕ) : Prop where
  table : s'.page T = protect (s.page T) 1024
  copy : s'.page f = protect (s.page T) 1024
  dir : s'.page D = update (s.page D) k { s.page D k with index := BitVec.ofNat 20 f }
  page : ∀ g, g ≠ T → g ≠ f → g ≠ D → g ≠ 2 → s'.page g = s.page g
  count : ∀ g, s'.memoryMap g = if g = f then 1 else
    if ∃ j, j < 1024 ∧ (s.page T j).present = true ∧ (s.page T j).index.toNat = g then
      s.memoryMap g + 1 else s.memoryMap g
  total : s'.totalPages = s.totalPages
  kernelMap : s'.kernelMap = s.kernelMap

theorem entryAt_of_table (hp : (s.page d (v / 1024)).present = true)
    (hT : (s.page d (v / 1024)).index.toNat = T) :
    s.entryAt d v = if (s.page T (v % 1024)).present then some (s.page T (v % 1024)) else none := by
  unfold State.entryAt
  rw [if_pos hp, hT]

/-- The table's frames and the frames that space `p` uses in the pages of entry `k`. -/
theorem mem_uses_table (hsp : sp p = some (d, hi)) (hk4 : 4 ≤ k) (hk : k < hi)
    (hp : (s.page d k).present = true) (hT : (s.page d k).index.toNat = T) :
    (∃ v ∈ pagesOf k, (p, v) ∈ (s.cow sp).uses g) ↔
      ∃ j, j < 1024 ∧ (s.page T j).present = true ∧ (s.page T j).index.toNat = g := by
  constructor
  · rintro ⟨v, rfl, b, hb⟩
    rw [cow_map hsp, if_pos ⟨hk4, hk⟩, entryAt_of_table hp hT] at hb
    split_ifs at hb with hpj
    · exact ⟨v % 1024, Nat.mod_lt _ (by decide), hpj, (Prod.mk.inj (Option.some.inj hb)).1⟩
    · simp at hb
  · rintro ⟨j, hj, hpj, he⟩
    have hdiv : (k * 1024 + j) / 1024 = k := by omega
    have hmod : (k * 1024 + j) % 1024 = j := by omega
    refine ⟨k * 1024 + j, hdiv, (s.page T j).write, ?_⟩
    rw [cow_map hsp, hdiv, if_pos ⟨hk4, hk⟩,
      entryAt_of_table (T := T) (by rw [hdiv]; exact hp) (by rw [hdiv]; exact hT), hmod, if_pos hpj,
      Option.map_some, he]

theorem Layout.share (h : Layout s sp) (hp : sp p = some (d, 1023)) (hq : sp q = some (D, k))
    (hk4 : 4 ≤ k) (hk : k < 1023) (hdD : s.page D k = s.page d k)
    (hpres : (s.page d k).present = true) (hT : (s.page d k).index.toNat = T)
    (hf : Spare s sp f) (hs : Shares s s' D k f T) (hc : Counts s') :
    Layout s' (update sp q (some (D, k + 1))) ∧
      (s'.cow (update sp q (some (D, k + 1)))).map = ((s.cow sp).share p q (pagesOf k)).map := by
  have htotal := h.counts.total
  have hfge := hf.ge
  have hflt := hf.lt
  have hpq : p ≠ q := by
    rintro rfl
    have := (Prod.mk.inj (Option.some.inj (hp.symm.trans hq))).2
    omega
  have htT : Table s sp p k T := hT ▸ table_of_present hp hk4 hk hpres
  obtain ⟨hTge, hTlt, hT1, hTnot⟩ := h.table p k T htT
  have hTf : T ≠ f := by
    rintro rfl
    exact hf.table p k htT
  obtain ⟨hdir, hd256, -, -⟩ := h.dir p d 1023 hp
  obtain ⟨hDir, hD256, -, hDbit⟩ := h.dir q D k hq
  have hdlt := hdir.lt
  have hDlt := hDir.lt
  have hindex : (BitVec.ofNat 20 f).toNat = f := by
    rw [BitVec.toNat_ofNat]
    exact Nat.mod_eq_of_lt (by omega)
  have hsp' : ∀ u d' hi', update sp q (some (D, k + 1)) u = some (d', hi') →
      (u = q ∧ d' = D ∧ hi' = k + 1) ∨ (u ≠ q ∧ sp u = some (d', hi')) := by
    intro u d' hi' hu
    by_cases huq : u = q
    · subst huq
      rw [update_self] at hu
      obtain ⟨rfl, rfl⟩ := Prod.mk.inj (Option.some.inj hu)
      exact Or.inl ⟨rfl, rfl, rfl⟩
    · rw [update_of_ne huq] at hu
      exact Or.inr ⟨huq, hu⟩
  -- the directories of the other spaces, and the other entries of the new one
  have hdirs : ∀ u d' hi', u ≠ q → sp u = some (d', hi') → s'.page d' = s.page d' := by
    intro u d' hi' huq hu
    obtain ⟨h1, h2, -, -⟩ := h.dir u d' hi' hu
    have := h1.lt
    refine hs.page d' (by omega) (by omega) ?_ (by omega)
    rintro rfl
    exact huq (h.dir_inj u q d' hi' k hu hq)
  have hDk : s'.page D k = { s.page D k with index := BitVec.ofNat 20 f } := by
    rw [hs.dir, update_self]
  have hDj : ∀ j, j ≠ k → s'.page D j = s.page D j := fun j hj => by
    rw [hs.dir, update_of_ne hj]
  have htables : ∀ u j g, Table s sp u j g → g ≠ T → s'.page g = s.page g := by
    intro u j g hg hgT
    have := (h.table u j g hg).1
    refine hs.page g hgT ?_ (by omega) (by omega)
    rintro rfl
    exact hf.table u j hg
  have htab : ∀ u j g, Table s' (update sp q (some (D, k + 1))) u j g ↔
      Table s sp u j g ∨ (u = q ∧ j = k ∧ g = f) := by
    intro u j g
    constructor
    · rintro ⟨d', hi', hu, h4, hlt, hpr, he⟩
      rcases hsp' u d' hi' hu with ⟨rfl, rfl, rfl⟩ | ⟨huq, hu⟩
      · by_cases hjk : j = k
        · subst hjk
          rw [hDk] at he
          exact Or.inr ⟨rfl, rfl, by rw [← he]; exact hindex⟩
        · rw [hDj j hjk] at hpr he
          exact Or.inl ⟨d', k, hq, h4, by omega, hpr, he⟩
      · rw [hdirs u d' hi' huq hu] at hpr he
        exact Or.inl ⟨d', hi', hu, h4, hlt, hpr, he⟩
    · rintro (⟨d', hi', hu, h4, hlt, hpr, he⟩ | ⟨rfl, rfl, rfl⟩)
      · by_cases huq : u = q
        · subst huq
          obtain ⟨rfl, rfl⟩ := Prod.mk.inj (Option.some.inj (hq.symm.trans hu))
          rw [← hDj j (by omega)] at hpr he
          exact ⟨D, k + 1, update_self _ _ _, h4, by omega, hpr, he⟩
        · rw [← hdirs u d' hi' huq hu] at hpr he
          exact ⟨d', hi', by rw [update_of_ne huq]; exact hu, h4, hlt, hpr, he⟩
      · exact ⟨D, j + 1, update_self _ _ _, hk4, by omega, by rw [hDk, hdD]; exact hpres, by
          rw [hDk]; exact hindex⟩
  have hm : (s'.cow (update sp q (some (D, k + 1)))).map =
      ((s.cow sp).share p q (pagesOf k)).map := by
    funext u w
    by_cases hu : (u = p ∨ u = q) ∧ w ∈ pagesOf k
    · rw [Cow.map_share_of_mem hu.1 hu.2, cow_map hp]
      obtain ⟨hu, rfl⟩ := hu
      rw [if_pos ⟨hk4, hk⟩, entryAt_of_table hpres hT]
      have hfin : ∀ x, (if (protect (s.page T) 1024 (w % 1024)).present = true then
            some (protect (s.page T) 1024 (w % 1024)) else none) = x →
          x.map (fun e => (e.index.toNat, e.write)) =
            ((if (s.page T (w % 1024)).present = true then some (s.page T (w % 1024)) else none).map
              fun e => (e.index.toNat, e.write)).map fun e => (e.1, false) := by
        rintro _ rfl
        rw [protect_present]
        split_ifs with hpj
        · rw [Option.map_some, Option.map_some, Option.map_some, protect_index,
            protect_write (s.page T) (Nat.mod_lt w (by decide)) hpj]
        · rfl
      rcases hu with rfl | rfl
      · rw [cow_map (by rw [update_of_ne hpq]; exact hp), if_pos ⟨hk4, hk⟩]
        refine hfin _ ?_
        have hd' := hdirs u d 1023 hpq hp
        rw [entryAt_of_table (T := T) (by rw [hd']; exact hpres) (by rw [hd']; exact hT), hs.table]
      · rw [cow_map (update_self _ _ _), if_pos ⟨hk4, by omega⟩]
        refine hfin _ ?_
        rw [entryAt_of_table (T := f) (by rw [hDk, hdD]; exact hpres) (by rw [hDk]; exact hindex),
          hs.copy]
    · rw [Cow.map_share_of_not hu]
      by_cases huq : u = q
      · subst huq
        have hw : w / 1024 ≠ k := fun hw => hu ⟨Or.inr rfl, hw⟩
        rw [cow_map (update_self _ _ _), cow_map hq]
        by_cases hlt : 4 ≤ w / 1024 ∧ w / 1024 < k
        · rw [if_pos hlt, if_pos ⟨hlt.1, by omega⟩]
          refine congrArg _ (entryAt_congr (hDj _ hw) fun hpw => ?_)
          have htw := table_of_present hq hlt.1 hlt.2 hpw
          rw [htables u _ _ htw]
          intro he
          rw [he] at htw
          exact hpq (h.table_inj p u k _ T htT htw).1
        · rw [if_neg hlt, if_neg (by omega)]
      · cases hsu : sp u with
        | none => rw [cow_map_none hsu, cow_map_none (by rw [update_of_ne huq, hsu])]
        | some r =>
          obtain ⟨d', hi'⟩ := r
          rw [cow_map hsu, cow_map (by rw [update_of_ne huq, hsu])]
          split_ifs with hw
          · refine congrArg _ (entryAt_congr (by rw [hdirs u d' hi' huq hsu]) fun hpw => ?_)
            have htw := table_of_present hsu hw.1 hw.2 hpw
            rw [htables u _ _ htw]
            intro he
            rw [he] at htw
            obtain ⟨rfl, hwk⟩ := h.table_inj u p _ k T htw htT
            exact hu ⟨Or.inl rfl, hwk⟩
          · rfl
  have hback : ∀ g, Used s' (update sp q (some (D, k + 1))) g → Used s sp g := by
    rintro g ⟨⟨u, w⟩, b, hb⟩
    rw [hm] at hb
    by_cases hu : (u = p ∨ u = q) ∧ w ∈ pagesOf k
    · rw [Cow.map_share_of_mem hu.1 hu.2] at hb
      cases hpw : (s.cow sp).map p w with
      | none => simp [hpw] at hb
      | some e' =>
        rw [hpw, Option.map_some] at hb
        refine ⟨(p, w), e'.2, ?_⟩
        rw [← (Prod.mk.inj (Option.some.inj hb)).1]
        exact hpw
    · rw [Cow.map_share_of_not hu] at hb
      exact ⟨(u, w), b, hb⟩
  have hcount : ∀ g, Used s sp g → g ≠ f := by
    rintro g hg rfl
    exact hf.used hg
  have hnotin : ∀ g, ¬ Used s sp g →
      ¬ ∃ j, j < 1024 ∧ (s.page T j).present = true ∧ (s.page T j).index.toNat = g := by
    intro g hg hex
    obtain ⟨v, -, hv⟩ := (mem_uses_table hp hk4 hk hpres hT).mpr hex
    exact hg ⟨_, hv⟩
  have hcow : ((s.cow sp).share p q (pagesOf k)).Inv s'.memoryMap := by
    refine h.cow.share hpq (fun v hv => ?_) (fun g hex => ?_) fun g hg hno => ?_
    · obtain rfl : v / 1024 = k := hv
      rw [cow_map hq, if_neg (by omega)]
    · have hg : g ≠ f := by
        obtain ⟨v, -, hv⟩ := hex
        exact hcount g ⟨_, hv⟩
      rw [hs.count g, if_neg hg, if_pos ((mem_uses_table hp hk4 hk hpres hT).mp hex)]
    · rw [hs.count g, if_neg (hcount g hg),
        if_neg fun hex => hno ((mem_uses_table hp hk4 hk hpres hT).mpr hex)]
  refine ⟨⟨hc, hs.kernelMap ▸ h.map, ⟨?_, ?_⟩, fun u d' hi' hu => ?_,
    fun u u' d' hi' hi'' hu hu' => ?_, fun u j g hg => ?_, fun u u' j j' g hg hg' => ?_,
    fun u j d' hi' hu h4 hlt hpj => ?_, fun g hg => ?_, hcow.congr hm fun _ _ => rfl⟩, hm⟩
  · exact h.kernelDir.1.congr (hs.page 1 (by omega) (by omega) (by omega) (by decide))
  · rw [hs.page 1 (by omega) (by omega) (by omega) (by decide)]
    exact h.kernelDir.2
  · rw [hs.kernelMap]
    rcases hsp' u d' hi' hu with ⟨rfl, rfl, rfl⟩ | ⟨huq, hu⟩
    · refine ⟨⟨hDir.lt, hDir.ne, fun j hj => ?_, ?_⟩, hD256, hk, hDbit⟩
      · rw [hDj j (by omega)]
        exact hDir.kernel j hj
      · rw [hDj 1023 (by omega)]
        exact hDir.self
    · obtain ⟨h1, h2, h3, h4⟩ := h.dir u d' hi' hu
      exact ⟨h1.congr (hdirs u d' hi' huq hu), h2, h3, h4⟩
  · rcases hsp' u d' hi' hu with ⟨rfl, rfl, rfl⟩ | ⟨huq, h₁⟩
    · rcases hsp' u' d' hi'' hu' with ⟨rfl, -, -⟩ | ⟨huq', h₂⟩
      · rfl
      · exact absurd (h.dir_inj u' u d' hi'' k h₂ hq) huq'
    · rcases hsp' u' d' hi'' hu' with ⟨rfl, rfl, rfl⟩ | ⟨-, h₂⟩
      · exact absurd (h.dir_inj u u' d' hi' k h₁ hq) huq
      · exact h.dir_inj u u' d' hi' hi'' h₁ h₂
  · rw [hs.total]
    rcases (htab u j g).mp hg with hg | ⟨rfl, rfl, rfl⟩
    · obtain ⟨h1, h2, h3, h4⟩ := h.table u j g hg
      refine ⟨h1, h2, ?_, fun hu => h4 (hback g hu)⟩
      have hgf : g ≠ f := by
        rintro rfl
        exact hf.table u j hg
      rw [hs.count g, if_neg hgf, if_neg (hnotin g h4), h3]
    · exact ⟨hf.ge, hf.lt, by rw [hs.count g, if_pos rfl], fun hu => hf.used (hback g hu)⟩
  · rcases (htab u j g).mp hg with h₁ | ⟨rfl, rfl, rfl⟩
    · rcases (htab u' j' g).mp hg' with h₂ | ⟨-, -, rfl⟩
      · exact h.table_inj u u' j j' g h₁ h₂
      · exact absurd h₁ (hf.table u j)
    · rcases (htab u' j' g).mp hg' with h₂ | ⟨rfl, rfl, -⟩
      · exact absurd h₂ (hf.table u' j')
      · exact ⟨rfl, rfl⟩
  · have huser := h.user p k d 1023 hp hk4 hk hpres
    rw [hT] at huser
    have hprot : ∀ j < 1024, (protect (s.page T) 1024 j).present = true →
        (protect (s.page T) 1024 j).user = true := by
      intro j hj hpj
      rw [protect_present] at hpj
      rw [protect_user]
      exact huser.2 j hj hpj
    rcases hsp' u d' hi' hu with ⟨rfl, rfl, rfl⟩ | ⟨huq, hu⟩
    · by_cases hjk : j = k
      · subst hjk
        rw [hDk]
        dsimp only
        rw [hindex, hs.copy, hdD]
        exact ⟨huser.1, hprot⟩
      · rw [hDj j hjk] at hpj ⊢
        have htw := table_of_present hq h4 (by omega) hpj
        rw [htables u j _ htw fun he => hpq (h.table_inj p u k j T htT (he ▸ htw)).1]
        exact h.user u j d' k hq h4 (by omega) hpj
    · rw [hdirs u d' hi' huq hu] at hpj ⊢
      have htw := table_of_present hu h4 hlt hpj
      by_cases hg : (s.page d' j).index.toNat = T
      · rw [hg, hs.table]
        exact ⟨(h.user u j d' hi' hu h4 hlt hpj).1, hprot⟩
      · rw [htables u j _ htw hg]
        exact h.user u j d' hi' hu h4 hlt hpj
  · rw [hs.total]
    exact h.used g (hback g hg)

/-- An entry that is not present is passed over. -/
theorem Layout.skip (h : Layout s sp) (hp : sp p = some (d, 1023)) (hq : sp q = some (D, k))
    (hk4 : 4 ≤ k) (hk : k < 1023) (hdD : s.page D k = s.page d k)
    (hpres : (s.page d k).present = false) :
    Layout s (update sp q (some (D, k + 1))) ∧
      (s.cow (update sp q (some (D, k + 1)))).map = ((s.cow sp).share p q (pagesOf k)).map := by
  have hsp' : ∀ u d' hi', update sp q (some (D, k + 1)) u = some (d', hi') →
      (u = q ∧ d' = D ∧ hi' = k + 1) ∨ sp u = some (d', hi') := by
    intro u d' hi' hu
    by_cases huq : u = q
    · subst huq
      rw [update_self] at hu
      obtain ⟨rfl, rfl⟩ := Prod.mk.inj (Option.some.inj hu)
      exact Or.inl ⟨rfl, rfl, rfl⟩
    · rw [update_of_ne huq] at hu
      exact Or.inr hu
  have hnone : ∀ w, w / 1024 = k → s.entryAt D w = none ∧ s.entryAt d w = none := by
    rintro w rfl
    unfold State.entryAt
    rw [hdD, hpres]
    exact ⟨rfl, rfl⟩
  have hmsame : (s.cow (update sp q (some (D, k + 1)))).map = (s.cow sp).map := by
    funext u w
    by_cases huq : u = q
    · subst huq
      rw [cow_map (update_self _ _ _), cow_map hq]
      by_cases hw : w / 1024 = k
      · rw [if_pos (by omega), if_neg (by omega), (hnone w hw).1]
        rfl
      · by_cases hlt : 4 ≤ w / 1024 ∧ w / 1024 < k
        · rw [if_pos hlt, if_pos ⟨hlt.1, by omega⟩]
        · rw [if_neg hlt, if_neg (by omega)]
    · cases hsu : sp u with
      | none => rw [cow_map_none hsu, cow_map_none (by rw [update_of_ne huq, hsu])]
      | some r =>
        obtain ⟨d', hi'⟩ := r
        rw [cow_map hsu, cow_map (by rw [update_of_ne huq, hsu])]
  have hmshare : (s.cow sp).map = ((s.cow sp).share p q (pagesOf k)).map := by
    funext u w
    by_cases hu : (u = p ∨ u = q) ∧ w ∈ pagesOf k
    · rw [Cow.map_share_of_mem hu.1 hu.2]
      obtain ⟨hu, rfl⟩ := hu
      have hpw : (s.cow sp).map p w = none := by
        rw [cow_map hp, (hnone w rfl).2]
        split_ifs <;> rfl
      rcases hu with rfl | rfl
      · rw [hpw]
        rfl
      · rw [hpw, cow_map hq, if_neg (by omega)]
        rfl
    · rw [Cow.map_share_of_not hu]
  have htab : ∀ u j g, Table s (update sp q (some (D, k + 1))) u j g → Table s sp u j g := by
    rintro u j g ⟨d', hi', hu, h4, hlt, hpr, he⟩
    rcases hsp' u d' hi' hu with ⟨rfl, rfl, rfl⟩ | hu
    · have hjk : j ≠ k := by
        rintro rfl
        rw [hdD, hpres] at hpr
        exact absurd hpr (by decide)
      exact ⟨d', k, hq, h4, by omega, hpr, he⟩
    · exact ⟨d', hi', hu, h4, hlt, hpr, he⟩
  have huse : ∀ g, Used s (update sp q (some (D, k + 1))) g ↔ Used s sp g := by
    intro g
    unfold Used Cow.uses
    rw [hmsame]
  have hinj : ∀ u d' hi', update sp q (some (D, k + 1)) u = some (d', hi') →
      ∃ hi'', sp u = some (d', hi'') := by
    intro u d' hi' hu
    rcases hsp' u d' hi' hu with ⟨rfl, rfl, rfl⟩ | hu
    · exact ⟨k, hq⟩
    · exact ⟨hi', hu⟩
  refine ⟨⟨h.counts, h.map, h.kernelDir, fun u d' hi' hu => ?_, fun u u' d' hi' hi'' hu hu' => ?_,
    fun u j g hg => ?_, fun u u' j j' g hg hg' => h.table_inj u u' j j' g (htab _ _ _ hg) (htab _ _ _ hg'),
    fun u j d' hi' hu h4 hlt hpj => ?_, fun g hg => h.used g ((huse g).mp hg),
    h.cow.congr hmsame fun _ _ => rfl⟩, hmsame.trans hmshare⟩
  · rcases hsp' u d' hi' hu with ⟨rfl, rfl, rfl⟩ | hu
    · obtain ⟨h1, h2, -, h4⟩ := h.dir u d' k hq
      exact ⟨h1, h2, hk, h4⟩
    · exact h.dir u d' hi' hu
  · obtain ⟨a, ha⟩ := hinj u d' hi' hu
    obtain ⟨b, hb⟩ := hinj u' d' hi'' hu'
    exact h.dir_inj u u' d' a b ha hb
  · rw [huse]
    exact h.table u j g (htab u j g hg)
  · rcases hsp' u d' hi' hu with ⟨rfl, rfl, rfl⟩ | hu
    · have hjk : j ≠ k := by
        rintro rfl
        rw [hdD, hpres] at hpj
        exact absurd hpj (by decide)
      exact h.user u j d' k hq h4 (by omega) hpj
    · exact h.user u j d' hi' hu h4 hlt hpj

end Share

end Onix.Memory
